import GraphTraversal.Proofs.Run.Resumption
import GraphTraversal.Proofs.Run.Results

/-! # Drawing results

Whatever hands out results one at a time is a producer: asked on a graph, it brings a result or learns
that there is none, and is left in another state and with another graph.  Cells are one and steps with
their flow are one, and they agree.  A run of cells with any consumer is nothing but one draw after
another, each result handed to the consumer before the next is drawn.
-/

namespace GraphTraversal

structure Draw (S : Type) where
  result : Option (Except Error Value)
  state : S
  graph : Graph

abbrev Producer (S : Type) := S → Graph → Draw S

variable {S S' σ α : Type}

/-! ## Sequences of draws -/

/-- Drawing until there is nothing left brings these results and leaves this graph. -/
inductive Drains (p : Producer S) : S → Graph → Results → Graph → Prop where
  | done {s : S} {g : Graph} (hnone : (p s g).result = none) : Drains p s g [] (p s g).graph
  | next {s : S} {g g' : Graph} {r : Except Error Value} {l : Results} (hsome : (p s g).result = some r)
    (rest : Drains p (p s g).state (p s g).graph l g') : Drains p s g (r :: l) g'

/-- Drawing until there have been `n` values or nothing is left, and no further, brings these results
and leaves this graph. -/
inductive DrawsValues (p : Producer S) : Nat → S → Graph → Results → Graph → Prop where
  | enough {s : S} {g : Graph} : DrawsValues p 0 s g [] g
  | done {n : Nat} {s : S} {g : Graph} (hnone : (p s g).result = none) :
    DrawsValues p (n + 1) s g [] (p s g).graph
  | value {n : Nat} {s : S} {g g' : Graph} {v : Value} {l : Results}
    (hsome : (p s g).result = some (.ok v))
    (rest : DrawsValues p n (p s g).state (p s g).graph l g') : DrawsValues p (n + 1) s g (.ok v :: l) g'
  | error {n : Nat} {s : S} {g g' : Graph} {e : Error} {l : Results}
    (hsome : (p s g).result = some (.error e))
    (rest : DrawsValues p (n + 1) (p s g).state (p s g).graph l g') :
    DrawsValues p (n + 1) s g (.error e :: l) g'

/-- Draws one after another, each on whatever graph there is by then, bring these answers and lead from
one state to the other. -/
inductive Drawn (p : Producer S) : S → List (Option (Except Error Value)) → S → Prop where
  | nil (s : S) : Drawn p s [] s
  | cons {s s' : S} {l : List (Option (Except Error Value))} (g : Graph)
    (rest : Drawn p (p s g).state l s') : Drawn p s ((p s g).result :: l) s'

theorem Drawn.append {p : Producer S} {s s' s'' : S} {l l' : List (Option (Except Error Value))}
    (h : Drawn p s l s') (h' : Drawn p s' l' s'') : Drawn p s (l ++ l') s'' := by
  induction h with
  | nil => exact h'
  | cons g _ ih => exact .cons g (ih h')

/-! ## Producers that agree -/

/-- From related states both bring the same results on the same graphs, again and again. -/
structure Producer.Agree (p : Producer S) (p' : Producer S') (R : S → S' → Prop) : Prop where
  result : ∀ {s s'}, R s s' → ∀ g, (p s g).result = (p' s' g).result
  graph : ∀ {s s'}, R s s' → ∀ g, (p s g).graph = (p' s' g).graph
  state : ∀ {s s'}, R s s' → ∀ g, R (p s g).state (p' s' g).state

section Agreement

variable {p : Producer S} {p' : Producer S'} {R : S → S' → Prop} (hp : p.Agree p' R)

include hp

theorem Producer.Agree.symm : p'.Agree p fun s' s => R s s' where
  result hs g := (hp.result hs g).symm
  graph hs g := (hp.graph hs g).symm
  state hs g := hp.state hs g

theorem Drains.agree {s : S} {s' : S'} (hs : R s s') {g g' : Graph} {l : Results}
    (h : Drains p s g l g') : Drains p' s' g l g' := by
  induction h generalizing s' with
  | @done s g hnone =>
    rw [hp.graph hs]
    exact .done ((hp.result hs g).symm.trans hnone)
  | @next s g g' r l hsome _ ih =>
    have hrest := ih (hp.state hs g)
    rw [hp.graph hs] at hrest
    exact .next ((hp.result hs g).symm.trans hsome) hrest

theorem DrawsValues.agree {n : Nat} {s : S} {s' : S'} (hs : R s s') {g g' : Graph} {l : Results}
    (h : DrawsValues p n s g l g') : DrawsValues p' n s' g l g' := by
  induction h generalizing s' with
  | enough => exact .enough
  | @done n s g hnone =>
    rw [hp.graph hs]
    exact .done ((hp.result hs g).symm.trans hnone)
  | @value n s g g' v l hsome _ ih =>
    have hrest := ih (hp.state hs g)
    rw [hp.graph hs] at hrest
    exact .value ((hp.result hs g).symm.trans hsome) hrest
  | @error n s g g' e l hsome _ ih =>
    have hrest := ih (hp.state hs g)
    rw [hp.graph hs] at hrest
    exact .error ((hp.result hs g).symm.trans hsome) hrest

theorem Drawn.agree {s s₁ : S} {s' : S'} (hs : R s s') {l : List (Option (Except Error Value))}
    (h : Drawn p s l s₁) : ∃ s₁', R s₁ s₁' ∧ Drawn p' s' l s₁' := by
  induction h generalizing s' with
  | nil => exact ⟨s', hs, .nil s'⟩
  | @cons s s₁ l g _ ih =>
    obtain ⟨s₁', hs₁, hrest⟩ := ih (hp.state hs g)
    rw [hp.result hs]
    exact ⟨s₁', hs₁, .cons g hrest⟩

theorem drains_iff {s : S} {s' : S'} (hs : R s s') {g g' : Graph} {l : Results} :
    Drains p s g l g' ↔ Drains p' s' g l g' :=
  ⟨.agree hp hs, .agree hp.symm hs⟩

theorem drawsValues_iff {n : Nat} {s : S} {s' : S'} (hs : R s s') {g g' : Graph} {l : Results} :
    DrawsValues p n s g l g' ↔ DrawsValues p' n s' g l g' :=
  ⟨.agree hp hs, .agree hp.symm hs⟩

end Agreement

/-! ## Feeding a consumer -/

/-- Each result that is drawn goes to the consumer before the next is drawn, until it wants no more or
nothing is left. -/
inductive Feeds (p : Producer S) (c : Consumer α) :
    S → α → Graph → List (Option (Except Error Value)) → S → Reply α → Prop where
  | done {s : S} {a : α} {g : Graph} (hnone : (p s g).result = none) :
    Feeds p c s a g [none] (p s g).state ⟨a, (p s g).graph, true⟩
  | enough {s : S} {a : α} {g : Graph} {r : Except Error Value} (hsome : (p s g).result = some r)
    (henough : (c a (p s g).graph r).more = false) :
    Feeds p c s a g [some r] (p s g).state (c a (p s g).graph r)
  | more {s s' : S} {a : α} {g : Graph} {r : Except Error Value} {q q' : Reply α}
    {l : List (Option (Except Error Value))} (hsome : (p s g).result = some r)
    (hreply : c a (p s g).graph r = q) (hmore : q.more = true)
    (rest : Feeds p c (p s g).state q.state q.graph l s' q') : Feeds p c s a g (some r :: l) s' q'

theorem Feeds.drawn {p : Producer S} {c : Consumer α} {s s' : S} {a : α} {g : Graph} {q : Reply α}
    {l : List (Option (Except Error Value))} (h : Feeds p c s a g l s' q) : Drawn p s l s' := by
  induction h with
  | @done s a g hnone => exact hnone ▸ .cons g (.nil _)
  | @enough s a g r hsome _ => exact hsome ▸ .cons g (.nil _)
  | @more s s' a g r q q' l hsome _ _ _ ih => exact hsome ▸ .cons g ih

/-! ## Runs are draws -/

/-- A step comes back from nowhere as another one would. -/
theorem Machine.agree_self (m : Machine σ) : m.Agree m Eq Eq fun _ => True := by
  constructor
  · rintro s _ rfl
    rfl
  · rintro s _ rfl v g -
    exact ⟨.refl _, rfl, rfl, trivial⟩
  · rintro s _ rfl - l g -
    exact ⟨.refl _, rfl, rfl, trivial⟩

theorem cells_eq_of_agree {xs ys : List (Cell σ)} (h : List.Forall₂ (Cell.Agree Eq) xs ys) :
    xs = ys := by
  induction h with
  | nil => rfl
  | cons h _ ih =>
    obtain ⟨rfl, t⟩ := h
    rw [ih]

/-- Consumers that answer alike up to `Q` are served alike. -/
theorem run_consumers {α α' : Type} (m : Machine σ) (xs : List (Cell σ)) (source : List Value)
    {Q : α → α' → Prop} {c : Consumer α} {c' : Consumer α'}
    (hc : Consumer.Agree Eq Q (fun _ => True) c c') {a : α} {a' : α'} (ha : Q a a') (g : Graph) :
    (run m xs source c a g).cells = (run m xs source c' a' g).cells ∧
      (run m xs source c a g).source = (run m xs source c' a' g).source ∧
      Reply.Agree Q (fun _ => True) (run m xs source c a g).reply (run m xs source c' a' g).reply := by
  obtain ⟨hcells, hsource, hreply⟩ :=
    run_agree m.agree_self (List.forall₂_same.2 fun x _ => ⟨rfl, x.stage⟩) source hc ha trivial
  exact ⟨cells_eq_of_agree hcells, hsource, hreply⟩

def Machine.cellProducer (m : Machine σ) : Producer (List (Cell σ) × List Value) :=
  fun s g =>
    let o := run m s.1 s.2 takeOne none g
    ⟨o.reply.state, (o.cells, o.source), o.reply.graph⟩

section Unrolling

variable {m : Machine σ}

def pausing : Consumer (α × Option (Except Error Value)) := fun b g r => ⟨(b.1, some r), g, false⟩

def Reply.forgetful (q : Reply α) : Reply (α × Option (Except Error Value)) :=
  ⟨(q.state, none), q.graph, q.more⟩

def handing (c : Consumer α) : α × Option (Except Error Value) → Graph →
    Reply (α × Option (Except Error Value))
  | (a, some r), g => (c a g r).forgetful
  | (a, none), g => ⟨(a, none), g, true⟩

theorem pausing_resumes (c : Consumer α) :
    Resumes (fun _ => True) pausing (fun b g r => (c b.1 g r).forgetful) (handing c) where
  more _ h := by cases h
  stopped _ _ := rfl

theorem pausing_agree (a : α) :
    Consumer.Agree Eq (fun b o => b.1 = a ∧ b.2 = o) (fun _ => True) pausing takeOne := by
  constructor
  rintro ⟨_, o⟩ _ ⟨rfl, rfl⟩ g hg r r' hr
  obtain rfl := eqUpTo_iff_eq.1 hr
  exact ⟨⟨rfl, rfl⟩, rfl, trivial, rfl⟩

theorem forgetful_agree (c : Consumer α) :
    Consumer.Agree Eq (fun b a => b.1 = a) (fun _ => True) (fun b g r => (c b.1 g r).forgetful) c := by
  constructor
  rintro ⟨a, o⟩ _ rfl g hg r r' hr
  obtain rfl := eqUpTo_iff_eq.1 hr
  exact ⟨rfl, rfl, trivial, rfl⟩

/-- A consumer that takes one result has one exactly if the run has not ended. -/
theorem takeOne_steers : takeOne.Steers (· = none) (·.isSome = true) :=
  fun _ _ _ _ => ⟨nofun, fun _ => rfl⟩

theorem runOn_forgetful (xs : List (Cell σ)) (source : List Value) (c : Consumer α) (q : Reply α)
    {o : Run σ (α × Option (Except Error Value))}
    (ho : runOn m xs source (fun b g r => (c b.1 g r).forgetful) q.forgetful = o) :
    runOn m xs source c q = ⟨o.cells, o.source, ⟨o.reply.state.1, o.reply.graph, o.reply.more⟩⟩ := by
  obtain ⟨a, g, more⟩ := q
  cases more with
  | false => exact ho ▸ rfl
  | true =>
    have ho : run m xs source (fun b g r => (c b.1 g r).forgetful) (a, none) g = o := ho
    obtain ⟨hcells, hsource, ⟨hstate, hgraph, -, hmore⟩⟩ :=
      run_consumers m xs source (forgetful_agree c) (a := (a, none)) rfl g
    rw [ho] at hcells hsource hstate hgraph hmore
    rw [hcells, hsource, hstate, hgraph, hmore]
    rfl

theorem run_pausing (xs : List (Cell σ)) (source : List Value) (a : α) (g : Graph)
    {d : Draw (List (Cell σ) × List Value)} (hd : m.cellProducer (xs, source) g = d) :
    run m xs source pausing (a, none) g =
      ⟨d.state.1, d.state.2, ⟨(a, d.result), d.graph, d.result.isNone⟩⟩ := by
  subst hd
  obtain ⟨hcells, hsource, ⟨hstate, hr⟩, hgraph, -, hmore⟩ :=
    run_consumers m xs source (pausing_agree a) (a := (a, none)) ⟨rfl, rfl⟩ g
  obtain ⟨hended, hstopped⟩ := run_steers m xs source takeOne_steers g rfl
  dsimp only [Machine.cellProducer]
  generalize run m xs source pausing (a, none) g = o at *
  generalize run m xs source takeOne none g = o' at *
  obtain ⟨ys, rest, ⟨⟨b, r⟩, g', more⟩⟩ := o
  obtain ⟨ys', rest', ⟨r', g'', more'⟩⟩ := o'
  dsimp only at hcells hsource hstate hr hgraph hmore hended hstopped ⊢
  subst hcells hsource hstate hr hgraph hmore
  cases more with
  | true => rw [hended rfl]; rfl
  | false =>
    obtain ⟨r, rfl⟩ := Option.isSome_iff_exists.1 (hstopped rfl)
    rfl

/-- A run of any consumer draws one result, hands it over and goes on if more is wanted. -/
theorem run_unroll (hm : m.Keeps m.kind) (xs : List (Cell σ)) (source : List Value) (c : Consumer α)
    (a : α) (g : Graph) {d : Draw (List (Cell σ) × List Value)}
    (hd : m.cellProducer (xs, source) g = d) :
    run m xs source c a g =
      match d.result with
      | none => ⟨d.state.1, d.state.2, ⟨a, d.graph, true⟩⟩
      | some r => runOn m d.state.1 d.state.2 c (c a d.graph r) := by
  have hforgetful := run_resumes hm xs source (pausing_resumes c) (a := (a, none)) trivial g
  rw [run_pausing xs source a g hd] at hforgetful
  apply (runOn_forgetful xs source c ⟨a, g, true⟩ hforgetful).trans
  obtain ⟨r, ⟨ys, rest⟩, g'⟩ := d
  cases r with
  | none => rfl
  | some r => exact (runOn_forgetful ys rest c (c a g' r) rfl).symm

def counting (c : Consumer α) : Consumer (α × Nat) :=
  fun b g r =>
    let q := c b.1 g r
    ⟨(q.state, b.2 + 1), q.graph, q.more⟩

theorem counting_keeps (c : Consumer α) (k : Nat) : (counting c).Keeps (k ≤ ·.2) :=
  fun _ _ _ hk => Nat.le_succ_of_le hk

theorem run_feeds_of_count (hm : m.Keeps m.kind) (c : Consumer α) (n : Nat) (xs : List (Cell σ))
    (source : List Value) (a : α) (g : Graph) (k : Nat)
    (hn : (run m xs source (counting c) (a, k) g).reply.state.2 = k + n) :
    ∃ l, Feeds m.cellProducer c (xs, source) a g l
      ((run m xs source c a g).cells, (run m xs source c a g).source)
      (run m xs source c a g).reply := by
  induction n using Nat.strongRecOn generalizing xs source a g k with
  | ind n ih =>
    have hcount := run_unroll hm xs source (counting c) (a, k) g rfl
    have hrun := run_unroll hm xs source c a g rfl
    cases hr : (m.cellProducer (xs, source) g).result with
    | none =>
      rw [hr] at hrun
      rw [hrun]
      exact ⟨_, .done hr⟩
    | some r =>
      rw [hr] at hrun hcount
      dsimp only at hrun hcount
      cases hmore : (c a (m.cellProducer (xs, source) g).graph r).more with
      | false =>
        rw [runOn_of_enough hmore] at hrun
        rw [hrun]
        exact ⟨_, .enough hr hmore⟩
      | true =>
        rw [runOn_of_more hmore] at hrun
        rw [runOn_of_more (by exact hmore)] at hcount
        rw [hcount] at hn
        -- one result was counted, so fewer are left
        obtain ⟨hle, -⟩ := run_keeps hm (m.cellProducer (xs, source) g).state.1
          (m.cellProducer (xs, source) g).state.2 (counting_keeps c (k + 1))
          (a := (counting c (a, k) (m.cellProducer (xs, source) g).graph r).state)
          (counting c (a, k) (m.cellProducer (xs, source) g).graph r).graph (Nat.le_refl (k + 1))
        obtain ⟨l, hl⟩ := ih (n - 1) (by omega) _ _ _ _ (k + 1) (hn.trans (by omega))
        rw [hrun]
        exact ⟨_, .more hr rfl hmore hl⟩

/-- A run of any consumer feeds it what is drawn from the cells. -/
theorem run_feeds (hm : m.Keeps m.kind) (xs : List (Cell σ)) (source : List Value) (c : Consumer α)
    (a : α) (g : Graph) :
    ∃ l, Feeds m.cellProducer c (xs, source) a g l
      ((run m xs source c a g).cells, (run m xs source c a g).source)
      (run m xs source c a g).reply := by
  exact run_feeds_of_count hm c _ xs source a g 0 (Nat.zero_add _).symm

end Unrolling

/-! ## Draining -/

def insatiable : Consumer Unit := fun _ g _ => ⟨(), g, true⟩

theorem Feeds.drains {p : Producer S} {s s' : S} {a : Unit} {g : Graph} {q : Reply Unit}
    {l : List (Option (Except Error Value))} (h : Feeds p insatiable s a g l s' q) :
    ∃ l, Drains p s g l q.graph := by
  induction h with
  | done hnone => exact ⟨[], .done hnone⟩
  | enough _ henough => cases henough
  | @more s s' a g r q q' l hsome hreply _ _ ih =>
    obtain ⟨l, hl⟩ := ih
    subst hreply
    exact ⟨r :: l, .next hsome hl⟩

/-- Cells can be drained. -/
theorem exists_drains {m : Machine σ} (hm : m.Keeps m.kind) (xs : List (Cell σ)) (source : List Value)
    (g : Graph) : ∃ l g', Drains m.cellProducer (xs, source) g l g' := by
  obtain ⟨_, h⟩ := run_feeds hm xs source insatiable () g
  obtain ⟨l, hl⟩ := h.drains
  exact ⟨l, _, hl⟩

/-! ## Steps and their flow -/

def Machine.producer (m : Machine σ) : Producer (List σ × Flow) :=
  fun s g =>
    let p := s.2.pull m s.1 g
    ⟨p.result, (p.steps, p.flow), p.graph⟩

def ofCells (s : List (Cell σ) × List Value) : List σ × Flow :=
  (s.1.reverse.map (·.step), ⟨s.2, s.1.reverse.map (·.stage)⟩)

theorem Machine.producer_agree (m : Machine σ) :
    m.producer.Agree m.cellProducer fun s s' => s = ofCells s' where
  result := by
    rintro _ ⟨xs, source⟩ rfl g
    exact congr_arg (fun xs => (run m xs source takeOne none g).reply.state) (cells_reverse xs)
  graph := by
    rintro _ ⟨xs, source⟩ rfl g
    exact congr_arg (fun xs => (run m xs source takeOne none g).reply.graph) (cells_reverse xs)
  state := by
    rintro _ ⟨xs, source⟩ rfl g
    exact congr_arg (fun xs => let o := run m xs source takeOne none g; ofCells (o.cells, o.source))
      (cells_reverse xs)

def freshCells (steps : List σ) : List (Cell σ) := (steps.map fun s => ⟨s, .fresh⟩).reverse

theorem ofCells_fresh (steps : List σ) (seeds : List Value) :
    ofCells (freshCells steps, seeds) = (steps, .start seeds steps.length) := by
  simp [ofCells, freshCells, Flow.start, Function.comp_def]

/-- Steps can be drained. -/
theorem exists_drains_start {m : Machine σ} (hm : m.Keeps m.kind) (steps : List σ) (seeds : List Value)
    (g : Graph) : ∃ l g', Drains m.producer (steps, .start seeds steps.length) g l g' := by
  obtain ⟨l, g', h⟩ := exists_drains hm (freshCells steps) seeds g
  exact ⟨l, g', .agree m.producer_agree.symm (ofCells_fresh steps seeds).symm h⟩

end GraphTraversal
