import GraphTraversal.Proofs.Run.Turns

/-! # Cells that stand in for others

Cells can be replaced by others that bring the same results with the same effects, whatever stands behind
them.  To see that they do it is enough to look at single turns.  What stands behind may change the graph
between two draws, and some replacements bear only a part of that; but a cell behind evaluates nothing
before it has a value, so it is after values alone that the graph may have moved.
-/

namespace GraphTraversal

variable {S S' σ : Type}

/-! ## Draws that match -/

/-- The same result and the same graph, with states that are related on this graph, and after a value on
every graph within reach. -/
structure Draw.Matches (reach : Graph → Graph → Prop) (R : Graph → S → S' → Prop) (d : Draw S)
    (d' : Draw S') : Prop where
  result : d.result = d'.result
  graph : d.graph = d'.graph
  state : R d.graph d.state d'.state
  moved : ∀ {v}, d.result = some (.ok v) → ∀ {g}, reach d.graph g → R g d.state d'.state

/-- Related states bring draws that match, again and again, although the graph may move within reach
after each value. -/
def Producer.Tracks (reach : Graph → Graph → Prop) (p : Producer S) (p' : Producer S')
    (R : Graph → S → S' → Prop) : Prop :=
  ∀ {g s s'}, R g s s' → (p s g).Matches reach R (p' s' g)

section Draining

variable {reach : Graph → Graph → Prop} {p : Producer S} {p' : Producer S'}
  {R : Graph → S → S' → Prop}

theorem Draw.Matches.symm {d : Draw S} {d' : Draw S'} (h : d.Matches reach R d') :
    d'.Matches reach (fun g s' s => R g s s') d where
  result := h.result.symm
  graph := h.graph.symm
  state := h.graph ▸ h.state
  moved hv _ hg := h.moved (h.result.trans hv) (h.graph ▸ hg)

theorem Drains.tracked (hp : p.Tracks reach p' R) {g g' : Graph} {s : S} {s' : S'} (hs : R g s s')
    {l : Results} (h : Drains p s g l g') : Drains p' s' g l g' := by
  induction h generalizing s' with
  | @done s g hnone =>
    rw [(hp hs).graph]
    exact .done ((hp hs).result.symm.trans hnone)
  | @next s g g' r l hsome _ ih =>
    have hrest := ih (hp hs).state
    rw [(hp hs).graph] at hrest
    exact .next ((hp hs).result.symm.trans hsome) hrest

/-- States that are related once are drained alike. -/
theorem Producer.Tracks.drains_iff (hp : p.Tracks reach p' R) {g g' : Graph} {s : S} {s' : S'}
    (hs : R g s s') {l : Results} : Drains p s g l g' ↔ Drains p' s' g l g' :=
  ⟨.tracked hp hs, .tracked (fun h => (hp h).symm) hs⟩

end Draining

/-! ## Simulation turn by turn -/

variable {m : Machine σ}

/-- Single turns of related states match: what a cell answers by itself, a turn that ends the pull, and
a turn after which another follows, unless the pull is matched at once. -/
structure Simulates (m : Machine σ) (reach : Graph → Graph → Prop) (p' : Producer S')
    (R : Graph → List (Cell σ) × List Value → S' → Prop) : Prop where
  nonempty : ∀ {g source s'}, ¬ R g ([], source) s'
  answered : ∀ {g x before source s' r y}, R g (x :: before, source) s' → x.answer? m = some (r, y) →
    Draw.Matches reach R ⟨r.map .ok, (y :: before, source), g⟩ (p' s' g)
  finished : ∀ {g x before source s' d}, R g (x :: before, source) s' → x.answer? m = none →
    x.turn m (m.cellProducer (before, source) g) = .finished d → d.Matches reach R (p' s' g)
  again : ∀ {g x before source s' s₁ g₁}, R g (x :: before, source) s' → x.answer? m = none →
    x.turn m (m.cellProducer (before, source) g) = .again s₁ g₁ →
      (∃ s₁', R g₁ s₁ s₁' ∧ p' s' g = p' s₁' g₁) ∨
        (m.cellProducer s₁ g₁).Matches reach R (p' s' g)

theorem Simulates.tracks (hm : m.Keeps m.kind) {reach : Graph → Graph → Prop} {p' : Producer S'}
    {R : Graph → List (Cell σ) × List Value → S' → Prop} (h : Simulates m reach p' R) :
    m.cellProducer.Tracks reach p' R := by
  intro g s s' hs
  have hpull := pulled hm s g
  generalize m.cellProducer s g = d at hpull
  induction hpull generalizing s' with
  | seed => exact absurd hs h.nonempty
  | answered hr => exact h.answered hs hr
  | finished hasks hdraw hturn =>
    obtain rfl := hdraw.eq_draw hm
    exact h.finished hs hasks hturn
  | again hasks hdraw hturn hrest _ ih =>
    obtain rfl := hdraw.eq_draw hm
    obtain ⟨s₁', hs₁, heq⟩ | hmatch := h.again hs hasks hturn
    · exact heq ▸ ih hs₁
    · exact hrest.eq_draw hm ▸ hmatch

/-! ## Cells behind -/

/-- A cell answers with the first value that it holds, or that it is at its end. -/
theorem Cell.of_answer?_eq_some {x y : Cell σ} {r : Option Value} (h : x.answer? m = some (r, y)) :
    (∃ v l, x.stage.buffer = v :: l ∧ r = some v ∧
        y = { x with stage := { x.stage with buffer := l } }) ∨
      x.stage.buffer = [] ∧ r = none ∧ y.stage.exhausted = true := by
  unfold Cell.answer? at h
  split at h
  · rename_i v l hb
    cases h
    exact .inl ⟨v, l, hb, rfl, rfl⟩
  · rename_i hb
    split at h
    · rename_i hx
      cases h
      exact .inr ⟨hb, rfl, hx⟩
    · split at h
      · split at h
        · cases h
          exact .inr ⟨hb, rfl, rfl⟩
        · cases h
      · cases h

/-- One cell, with steps in the class `P`, behind states that `R` relates.  When it is at its end they do
not matter; while it holds values they are related wherever the graph may move. -/
inductive Behind (P : σ → Prop) (reach : Graph → Graph → Prop)
    (R : Graph → List (Cell σ) × List Value → List (Cell σ) × List Value → Prop) (g : Graph) :
    List (Cell σ) × List Value → List (Cell σ) × List Value → Prop where
  | ended {x : Cell σ} (h : x.stage.exhausted = true) (ys ys' : List (Cell σ))
    (source source' : List Value) : Behind P reach R g (x :: ys, source) (x :: ys', source')
  | waiting {x : Cell σ} {ys ys' : List (Cell σ)} {source source' : List Value} (hx : P x.step)
    (hb : x.stage.buffer = []) (h : R g (ys, source) (ys', source')) :
    Behind P reach R g (x :: ys, source) (x :: ys', source')
  | holding {x : Cell σ} {ys ys' : List (Cell σ)} {source source' : List Value} (hx : P x.step)
    (h : ∀ {g'}, reach g g' → R g' (ys, source) (ys', source')) :
    Behind P reach R g (x :: ys, source) (x :: ys', source')

/-- Steps in the class `P` are barriers, or they stay in the class and move the graph within reach. -/
def Bears (m : Machine σ) (inner reach : Graph → Graph → Prop) (P : σ → Prop) : Prop :=
  ∀ s, P s → m.kind s = .gathering ∨ (∀ {g g'}, reach g g' → inner g g') ∧
    ∀ v g, P (m.expand s v g).state ∧ reach g (m.expand s v g).graph

/-- Where any graph is within reach, any step bears it. -/
theorem Bears.all (m : Machine σ) : Bears m (fun _ _ => True) (fun _ _ => True) fun _ => True :=
  fun _ _ => .inr ⟨fun _ => trivial, fun _ _ => ⟨trivial, trivial⟩⟩

/-- A barrier bears anything, for it evaluates when nothing more is drawn. -/
theorem Bears.gathering (m : Machine σ) (inner reach : Graph → Graph → Prop) :
    Bears m inner reach fun s => m.kind s = .gathering :=
  fun _ hk => .inl hk

theorem of_mem_freshCells {steps : List σ} {x : Cell σ} (hx : x ∈ freshCells steps) :
    x.step ∈ steps ∧ x.stage.buffer = [] := by
  obtain ⟨s, hs, rfl⟩ := List.mem_map.1 (List.mem_reverse.1 hx)
  exact ⟨hs, rfl⟩

section Behind

variable {P : σ → Prop} {inner reach : Graph → Graph → Prop}
  {R : Graph → List (Cell σ) × List Value → List (Cell σ) × List Value → Prop} {x : Cell σ}
  {s s' : List (Cell σ) × List Value} {g : Graph}

theorem Behind.matches_ended {y : Cell σ} (hy : y.stage.exhausted = true)
    (r : Option (Except Error Value)) (s s' : List (Cell σ) × List Value) (g : Graph) :
    Draw.Matches reach (Behind P reach R) ⟨r, (y :: s.1, s.2), g⟩ ⟨r, (y :: s'.1, s'.2), g⟩ :=
  ⟨rfl, rfl, .ended hy _ _ _ _, fun _ _ _ => .ended hy _ _ _ _⟩

theorem Behind.matches_error {y : Cell σ} (hy : P y.step) (hb : y.stage.buffer = [])
    (h : R g s s') (e : Error) :
    Draw.Matches reach (Behind P reach R) ⟨some (.error e), (y :: s.1, s.2), g⟩
      ⟨some (.error e), (y :: s'.1, s'.2), g⟩ :=
  ⟨rfl, rfl, .waiting hy hb h, nofun⟩

/-- A turn of the cell goes the same way over related states. -/
theorem Behind.turn_matches (hx : P x.step) (hrefl : ∀ g, inner g g)
    (htrans : ∀ a b c, reach a b → reach b c → reach a c) (hP : Bears m inner reach P)
    (hasks : x.answer? m = none) {d d' : Draw (List (Cell σ) × List Value)}
    (hd : d.Matches inner R d') :
    (∃ e e', x.turn m d = .finished e ∧ x.turn m d' = .finished e' ∧
        e.Matches reach (Behind P reach R) e') ∨
      ∃ s s' g, x.turn m d = .again s g ∧ x.turn m d' = .again s' g ∧ Behind P reach R g s s' := by
  obtain ⟨hb, -, -⟩ := Cell.of_answer?_eq_none hasks
  obtain ⟨r, s, g⟩ := d
  obtain ⟨r', s', g'⟩ := d'
  obtain ⟨hresult, hgraph, hstate, hmoved⟩ := hd
  dsimp only at hresult hgraph hstate hmoved
  subst hresult hgraph
  cases hk : m.kind x.step with
  | limiting quota =>
    simp only [Cell.turn, hk]
    refine .inl ⟨_, _, rfl, rfl, ?_⟩
    rcases r with _ | e | v
    · exact matches_ended rfl none s s' g
    · exact matches_error hx hb hstate e
    · obtain hk' | ⟨hreach, -⟩ := hP _ hx
      · cases hk.symm.trans hk'
      · exact ⟨rfl, rfl, .waiting hx hb hstate, fun _ _ hg => .waiting hx hb (hmoved rfl (hreach hg))⟩
  | expanding =>
    rcases r with _ | e | v <;> simp only [Cell.turn, hk]
    · exact .inl ⟨_, _, rfl, rfl, matches_ended rfl none s s' g⟩
    · exact .inl ⟨_, _, rfl, rfl, matches_error hx hb hstate e⟩
    · obtain hk' | ⟨hreach, hexpand⟩ := hP _ hx
      · cases hk.symm.trans hk'
      · obtain ⟨hstep, hgraph⟩ := hexpand v g
        cases (m.expand x.step v g).result with
        | error e =>
          exact .inl ⟨_, _, rfl, rfl, 
            matches_error (y := ⟨_, x.stage⟩) hstep hb (hmoved rfl (hreach hgraph)) e⟩
        | ok l =>
          exact .inr ⟨_, _, _, rfl, rfl,
            .holding hstep fun hg => hmoved rfl (hreach (htrans _ _ _ hgraph hg))⟩
  | gathering =>
    rcases r with _ | e | v <;> simp only [Cell.turn, hk]
    -- once all is gathered, what stands before does not matter
    · cases (m.release x.step x.stage.gathered.reverse g).result with
      | error e => exact .inl ⟨_, _, rfl, rfl, matches_ended rfl _ s s' _⟩
      | ok l => exact .inr ⟨_, _, _, rfl, rfl, .ended rfl _ _ _ _⟩
    · exact .inl ⟨_, _, rfl, rfl, matches_error hx hb hstate e⟩
    · exact .inr ⟨_, _, _, rfl, rfl, .waiting hx hb (hmoved rfl (hrefl g))⟩

theorem Behind.answer_matches (h : Behind P reach R g (x :: s.1, s.2) s')
    (htrans : ∀ a b c, reach a b → reach b c → reach a c) {y : Cell σ}
    {r : Option Value} (hr : x.answer? m = some (r, y)) :
    Draw.Matches reach (Behind P reach R) ⟨r.map .ok, (y :: s.1, s.2), g⟩ (m.cellProducer s' g) := by
  obtain ⟨v, l, hb, rfl, rfl⟩ | ⟨-, rfl, hy⟩ := Cell.of_answer?_eq_some hr
  · cases h with
    | ended hx =>
      rw [cellProducer_answered hr]
      exact matches_ended (by exact hx) _ s (_, _) g
    | waiting _ hb' => cases hb.symm.trans hb'
    | holding hx h =>
      rw [cellProducer_answered hr]
      exact ⟨rfl, rfl, .holding hx h, fun _ _ hg => .holding hx fun hg' => h (htrans _ _ _ hg hg')⟩
  · cases h <;> rw [cellProducer_answered hr] <;> exact matches_ended hy none s (_, _) g

/-- A cell behind does not notice which of two related states it draws from. -/
theorem Behind.simulates (hm : m.Keeps m.kind) (hrefl : ∀ g, inner g g) (hrefl' : ∀ g, reach g g)
    (htrans : ∀ a b c, reach a b → reach b c → reach a c) (hP : Bears m inner reach P)
    (hR : m.cellProducer.Tracks inner m.cellProducer R) :
    Simulates m reach m.cellProducer (Behind P reach R) := by
  have hasking {g : Graph} {x : Cell σ} {before : List (Cell σ)} {source : List Value}
      {s' : List (Cell σ) × List Value} (h : Behind P reach R g (x :: before, source) s')
      (hasks : x.answer? m = none) : ∃ s₁ : List (Cell σ) × List Value,
        s' = (x :: s₁.1, s₁.2) ∧ P x.step ∧ R g (before, source) s₁ := by
    obtain ⟨-, hx, -⟩ := Cell.of_answer?_eq_none hasks
    cases h with
    | ended h => cases hx.symm.trans h
    | waiting hx _ h => exact ⟨(_, _), rfl, hx, h⟩
    | holding hx h => exact ⟨(_, _), rfl, hx, h (hrefl' g)⟩
  constructor
  · rintro g source s' ⟨⟩
  · intro g x before source s' r y h hr
    exact answer_matches (s := (before, source)) h htrans hr
  · intro g x before source s' d h hasks hturn
    obtain ⟨s₁, rfl, hx, hs₁⟩ := hasking h hasks
    rw [cellProducer_turn hm hasks _ _ _ rfl]
    obtain ⟨e, e', he, he', hmatch⟩ | ⟨_, _, _, he, -⟩ :=
      turn_matches hx hrefl htrans hP hasks (hR hs₁)
    · cases he.symm.trans hturn
      rw [he']
      exact hmatch
    · cases he.symm.trans hturn
  · intro g x before source s' s₂ g₂ h hasks hturn
    obtain ⟨s₁, rfl, hx, hs₁⟩ := hasking h hasks
    rw [cellProducer_turn hm hasks _ _ _ rfl]
    obtain ⟨_, _, he, -⟩ | ⟨_, s₂', _, he, he', hs₂⟩ :=
      turn_matches hx hrefl htrans hP hasks (hR hs₁)
    · cases he.symm.trans hturn
    · cases he.symm.trans hturn
      rw [he']
      exact .inl ⟨s₂', hs₂, rfl⟩

/-- Cells that hold nothing yet do not notice either, however many they are. -/
theorem Producer.Tracks.behind (hm : m.Keeps m.kind) (hrefl : ∀ g, reach g g)
    (htrans : ∀ a b c, reach a b → reach b c → reach a c) (hP : Bears m reach reach P)
    (hR : m.cellProducer.Tracks reach m.cellProducer R) (hs : R g s s') (later : List (Cell σ))
    (hlater : ∀ x ∈ later, P x.step ∧ x.stage.buffer = []) :
    ∃ R', m.cellProducer.Tracks reach m.cellProducer R' ∧
      R' g (later ++ s.1, s.2) (later ++ s'.1, s'.2) := by
  induction later with
  | nil => exact ⟨R, hR, hs⟩
  | cons x later ih =>
    obtain ⟨⟨hx, hb⟩, hlater⟩ := List.forall_mem_cons.1 hlater
    obtain ⟨R', hR', hs'⟩ := ih hlater
    exact ⟨Behind P reach R', (Behind.simulates hm hrefl hrefl htrans hP hR').tracks hm,
      .waiting hx hb hs'⟩

end Behind

/-! ## Stretches of cells -/

structure Cell.Waits (m : Machine σ) (x : Cell σ) : Prop where
  kind : m.kind x.step = .expanding
  held : x.stage.buffer = []
  opened : x.stage.exhausted = false

theorem Cell.Waits.asks {x : Cell σ} (h : x.Waits m) : x.answer? m = none :=
  Cell.answer?_eq_none h.held h.opened (by simp [h.kind])

theorem waits_of_mem_freshCells {steps : List σ} (h : ∀ s ∈ steps, m.kind s = .expanding) :
    ∀ x ∈ freshCells steps, x.Waits m := by
  intro x hx
  obtain ⟨s, hs, rfl⟩ := List.mem_map.1 (List.mem_reverse.1 hx)
  exact ⟨h s hs, rfl, rfl⟩

section Waiting

variable {xs : List (Cell σ)} {s s' : List (Cell σ) × List Value} {g g' : Graph}

/-- Cells that wait pass on that nothing is left. -/
theorem ended_of_waits (hm : m.Keeps m.kind) (h : ∀ x ∈ xs, x.Waits m)
    (hdraw : m.cellProducer s g = ⟨none, s', g'⟩) :
    ∃ t, m.cellProducer (xs ++ s.1, s.2) g = ⟨none, t, g'⟩ ∧ AtEnd t := by
  induction xs with
  | nil => exact ⟨s', hdraw, by simpa [hdraw] using (pulled hm s g).atEnd (by rw [hdraw])⟩
  | cons x xs ih =>
    obtain ⟨hx, hxs⟩ := List.forall_mem_cons.1 h
    obtain ⟨t, ht, -⟩ := ih hxs
    rw [List.cons_append, cellProducer_turn hm hx.asks _ _ _ ht]
    simp only [Cell.turn, hx.kind]
    exact ⟨_, rfl, hx.held, rfl⟩

/-- They pass on an error, and wait as before. -/
theorem failed_of_waits (hm : m.Keeps m.kind) (h : ∀ x ∈ xs, x.Waits m) {e : Error}
    (hdraw : m.cellProducer s g = ⟨some (.error e), s', g'⟩) :
    m.cellProducer (xs ++ s.1, s.2) g = ⟨some (.error e), (xs ++ s'.1, s'.2), g'⟩ := by
  induction xs with
  | nil => exact hdraw
  | cons x xs ih =>
    obtain ⟨hx, hxs⟩ := List.forall_mem_cons.1 h
    rw [List.cons_append, cellProducer_turn hm hx.asks _ _ _ (ih hxs)]
    simp only [Cell.turn, hx.kind, List.cons_append]

end Waiting

/-- What a stretch draws when the cell that it stands in for has expanded a value: the failure, the first
of the outputs, or what comes next if there are none.  The states that are left are related again. -/
inductive Passes (m : Machine σ)
    (T : Graph → Cell σ → List (Cell σ) → List (Cell σ) × List Value → Prop) (stage : Stage)
    (o : Outcome σ (List Value)) (s : List (Cell σ) × List Value)
    (d : Draw (List (Cell σ) × List Value)) : Prop where
  | failed {e : Error} {stretch : List (Cell σ)} (ho : o.result = .error e)
    (hd : d = ⟨some (.error e), (stretch ++ s.1, s.2), o.graph⟩)
    (h : T o.graph ⟨o.state, stage⟩ stretch s) : Passes m T stage o s d
  | nothing {stretch : List (Cell σ)} (ho : o.result = .ok [])
    (hd : d = m.cellProducer (stretch ++ s.1, s.2) o.graph)
    (h : T o.graph ⟨o.state, { stage with buffer := [] }⟩ stretch s) : Passes m T stage o s d
  | value {v : Value} {l : List Value} {stretch : List (Cell σ)} (ho : o.result = .ok (v :: l))
    (hd : d = ⟨some (.ok v), (stretch ++ s.1, s.2), o.graph⟩)
    (h : T o.graph ⟨o.state, { stage with buffer := l }⟩ stretch s) : Passes m T stage o s d

/-- A stretch of cells stands in for one cell that expands, over whatever cells: it brings what the cell
holds, and when the cell holds nothing it draws once from the cells before and passes on what the cell
would. -/
structure StandsIn (m : Machine σ) (reach : Graph → Graph → Prop)
    (T : Graph → Cell σ → List (Cell σ) → List (Cell σ) × List Value → Prop) : Prop where
  kind : ∀ {g x stretch s}, T g x stretch s → m.kind x.step = .expanding ∧ x.stage.exhausted = false
  moved : ∀ {g x stretch s}, T g x stretch s → ∀ {g'}, reach g g' → T g' x stretch s
  held : ∀ {g x stretch s v l}, T g x stretch s → x.stage.buffer = v :: l →
    ∃ stretch', m.cellProducer (stretch ++ s.1, s.2) g = ⟨some (.ok v), (stretch' ++ s.1, s.2), g⟩ ∧
      T g { x with stage := { x.stage with buffer := l } } stretch' s
  ended : ∀ {g x stretch s s' g'}, T g x stretch s → x.stage.buffer = [] →
    m.cellProducer s g = ⟨none, s', g'⟩ →
      ∃ t, m.cellProducer (stretch ++ s.1, s.2) g = ⟨none, t, g'⟩ ∧ AtEnd t
  failed : ∀ {g x stretch s e s' g'}, T g x stretch s → x.stage.buffer = [] →
    m.cellProducer s g = ⟨some (.error e), s', g'⟩ →
      ∃ stretch', m.cellProducer (stretch ++ s.1, s.2) g =
        ⟨some (.error e), (stretch' ++ s'.1, s'.2), g'⟩ ∧ T g' x stretch' s'
  passed : ∀ {g x stretch s v s' g'}, T g x stretch s → x.stage.buffer = [] →
    m.cellProducer s g = ⟨some (.ok v), s', g'⟩ →
      Passes m T x.stage (m.expand x.step v g') s' (m.cellProducer (stretch ++ s.1, s.2) g)

/-- A cell and the stretch that stands in for it, over the same cells, or both at their end. -/
inductive Replaced (T : Graph → Cell σ → List (Cell σ) → List (Cell σ) × List Value → Prop)
    (g : Graph) : List (Cell σ) × List Value → List (Cell σ) × List Value → Prop where
  | running {x : Cell σ} {stretch before : List (Cell σ)} {source : List Value}
    (h : T g x stretch (before, source)) : Replaced T g (x :: before, source) (stretch ++ before, source)
  | ended {x : Cell σ} {before : List (Cell σ)} {source : List Value} {s' : List (Cell σ) × List Value}
    (h : AtEnd (x :: before, source)) (h' : AtEnd s') : Replaced T g (x :: before, source) s'

section Stretches

variable {reach : Graph → Graph → Prop}
  {T : Graph → Cell σ → List (Cell σ) → List (Cell σ) × List Value → Prop}

theorem Replaced.matches_ended {x : Cell σ} {before : List (Cell σ)} {source : List Value}
    {s' : List (Cell σ) × List Value} (h : AtEnd (x :: before, source)) (h' : AtEnd s') (g : Graph) :
    Draw.Matches reach (Replaced T) ⟨none, (x :: before, source), g⟩ ⟨none, s', g⟩ :=
  ⟨rfl, rfl, .ended h h', nofun⟩

theorem StandsIn.matches_value (hT : StandsIn m reach T) {g : Graph} {x : Cell σ}
    {stretch : List (Cell σ)} {s : List (Cell σ) × List Value} (h : T g x stretch s)
    (r : Option (Except Error Value)) :
    Draw.Matches reach (Replaced T) ⟨r, (x :: s.1, s.2), g⟩ ⟨r, (stretch ++ s.1, s.2), g⟩ :=
  ⟨rfl, rfl, .running h, fun _ _ hg => .running (hT.moved h hg)⟩

/-- The last of the cells that holds nothing. -/
theorem Replaced.not_ended {g : Graph} {x : Cell σ} {before : List (Cell σ)} {source : List Value}
    {s' : List (Cell σ) × List Value} (h : Replaced T g (x :: before, source) s')
    (hasks : x.answer? m = none) :
    ∃ stretch, s' = (stretch ++ before, source) ∧ T g x stretch (before, source) := by
  obtain ⟨-, hx, -⟩ := Cell.of_answer?_eq_none hasks
  cases h with
  | running h => exact ⟨_, rfl, h⟩
  | ended h _ => cases hx.symm.trans h.2

theorem StandsIn.simulates (hT : StandsIn m reach T) :
    Simulates m reach m.cellProducer (Replaced T) := by
  constructor
  · rintro g source s' ⟨⟩
  · intro g x before source s' r y h hr
    cases h with
    | running h =>
      obtain ⟨hk, hx⟩ := hT.kind h
      obtain ⟨v, l, hb, rfl, rfl⟩ | ⟨hb, -⟩ := Cell.of_answer?_eq_some hr
      · obtain ⟨stretch', hdraw, h'⟩ := hT.held h hb
        rw [hdraw]
        exact hT.matches_value h' _
      · cases hr.symm.trans (Cell.answer?_eq_none hb hx (by simp [hk]))
    | ended h h' =>
      rw [← cellProducer_answered hr, h.draw, h'.draw]
      exact Replaced.matches_ended h h' g
  · intro g x before source s' d hs hasks hturn
    obtain ⟨stretch, rfl, h⟩ := hs.not_ended hasks
    obtain ⟨hb, -, -⟩ := Cell.of_answer?_eq_none hasks
    obtain ⟨hk, -⟩ := hT.kind h
    rcases hdraw : m.cellProducer (before, source) g with ⟨_ | e | v, s₁, g₁⟩ <;>
      simp only [hdraw, Cell.turn, hk] at hturn
    · cases hturn
      obtain ⟨t, ht, hend⟩ := hT.ended h hb hdraw
      rw [ht]
      exact Replaced.matches_ended (by exact ⟨hb, rfl⟩) hend g₁
    · cases hturn
      obtain ⟨stretch', ht, h'⟩ := hT.failed h hb hdraw
      rw [ht]
      exact hT.matches_value h' _
    · obtain ⟨ho, ht, h'⟩ | ⟨ho, -, -⟩ | ⟨ho, -, -⟩ := hT.passed h hb hdraw <;>
        rw [ho] at hturn <;> cases hturn
      rw [ht]
      exact hT.matches_value h' _
  · intro g x before source s' s₂ g₂ hs hasks hturn
    obtain ⟨stretch, rfl, h⟩ := hs.not_ended hasks
    obtain ⟨hb, -, -⟩ := Cell.of_answer?_eq_none hasks
    obtain ⟨hk, -⟩ := hT.kind h
    obtain ⟨v, l, hr, hl, rfl, rfl⟩ := Cell.of_turn_again_expanding hk hturn
    rcases hdraw : m.cellProducer (before, source) g with ⟨r, s₁, g₁⟩
    rw [hdraw] at hr hl
    obtain rfl : r = some (.ok v) := hr
    obtain ⟨ho, -, -⟩ | ⟨ho, ht, h'⟩ | ⟨ho, ht, h'⟩ := hT.passed h hb hdraw
    · cases ho.symm.trans hl
    · cases ho.symm.trans hl
      exact .inl ⟨_, .running h', ht⟩
    · cases ho.symm.trans hl
      rw [ht, cellProducer_answered rfl]
      exact .inr (hT.matches_value h' _)

/-- A stretch is drained as the cell that it stands in for, with whatever cells behind it that bear as
much as it does. -/
theorem StandsIn.drains_iff (hm : m.Keeps m.kind) (hT : StandsIn m reach T) (hrefl : ∀ g, reach g g)
    (htrans : ∀ a b c, reach a b → reach b c → reach a c) {P : σ → Prop} (hP : Bears m reach reach P)
    {g : Graph} {x : Cell σ} {stretch before : List (Cell σ)} {source : List Value}
    (h : T g x stretch (before, source)) {later : List (Cell σ)}
    (hlater : ∀ x ∈ later, P x.step ∧ x.stage.buffer = []) {l : Results} {g' : Graph} :
    Drains m.cellProducer (later ++ x :: before, source) g l g' ↔
      Drains m.cellProducer (later ++ (stretch ++ before), source) g l g' := by
  obtain ⟨R, hR, hs⟩ := Producer.Tracks.behind hm hrefl htrans hP (hT.simulates.tracks hm)
    (Replaced.running h) later hlater
  exact hR.drains_iff hs

end Stretches

end GraphTraversal
