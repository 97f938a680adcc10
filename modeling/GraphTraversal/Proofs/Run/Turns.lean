import GraphTraversal.Proofs.Run.Demand
import GraphTraversal.Proofs.Run.Tally

/-! # A pull turn by turn

A pull at a cell goes in turns.  If the cell can answer by itself, the pull is over.  Otherwise it pulls
once from the cells before it, and what comes decides whether the pull is over or another turn follows.
Nothing bounds the turns in advance: inputs may expand to nothing, and a barrier asks for all it can get.
Still every pull comes to an end, with the draw that a run for one result makes.
-/

namespace GraphTraversal

variable {σ : Type}

/-- How a turn ends: with what the pull brings, or in a state from which another turn follows. -/
inductive Turn (σ : Type) where
  | finished (d : Draw (List (Cell σ) × List Value))
  | again (s : List (Cell σ) × List Value) (g : Graph)

/-- What a cell answers by itself: a value that it holds, or that nothing will come. -/
def Cell.answer? (m : Machine σ) (x : Cell σ) : Option (Option Value × Cell σ) :=
  match x.stage.buffer with
  | v :: l => some (some v, { x with stage := { x.stage with buffer := l } })
  | [] =>
    if x.stage.exhausted then some (none, x)
    else
      match m.kind x.step with
      | .limiting quota =>
        if quota ≤ x.stage.emitted then
          some (none, { x with stage := { x.stage with exhausted := true } })
        else none
      | _ => none

/-- What a cell that cannot answer by itself does with one draw from the cells before it. -/
def Cell.turn (m : Machine σ) (x : Cell σ) (d : Draw (List (Cell σ) × List Value)) : Turn σ :=
  let back (y : Cell σ) := (y :: d.state.1, d.state.2)
  match m.kind x.step, d.result with
  | .limiting _, r => .finished ⟨r, back (x.afterDraw r), d.graph⟩
  | _, some (.error e) => .finished ⟨some (.error e), back x, d.graph⟩
  | .expanding, none => .finished ⟨none, back (x.afterDraw none), d.graph⟩
  | .expanding, some (.ok v) =>
    let o := m.expand x.step v d.graph
    match o.result with
    | .error e => .finished ⟨some (.error e), back { x with step := o.state }, o.graph⟩
    | .ok l => .again (back ⟨o.state, { x.stage with buffer := l }⟩) o.graph
  | .gathering, some (.ok v) =>
    .again (back { x with stage := { x.stage with gathered := v :: x.stage.gathered } }) d.graph
  | .gathering, none =>
    let o := m.release x.step x.stage.gathered.reverse d.graph
    let stage := { x.stage with gathered := [], exhausted := true }
    match o.result with
    | .error e => .finished ⟨some (.error e), back ⟨o.state, stage⟩, o.graph⟩
    | .ok l => .again (back ⟨o.state, { stage with buffer := l }⟩) o.graph

/-- A pull takes finitely many turns, each with a pull of its own from the cells before, and ends with
this draw. -/
inductive Pulled (m : Machine σ) :
    List (Cell σ) × List Value → Graph → Draw (List (Cell σ) × List Value) → Prop where
  | seed (source : List Value) (g : Graph) :
    Pulled m ([], source) g ⟨source.head?.map .ok, ([], source.tail), g⟩
  | answered {x y : Cell σ} {r : Option Value} (h : x.answer? m = some (r, y))
    (before : List (Cell σ)) (source : List Value) (g : Graph) :
    Pulled m (x :: before, source) g ⟨r.map .ok, (y :: before, source), g⟩
  | finished {x : Cell σ} {before : List (Cell σ)} {source : List Value} {g : Graph}
    {d d' : Draw (List (Cell σ) × List Value)} (hasks : x.answer? m = none)
    (hdraw : Pulled m (before, source) g d) (h : x.turn m d = .finished d') :
    Pulled m (x :: before, source) g d'
  | again {x : Cell σ} {before : List (Cell σ)} {source : List Value} {g g' : Graph}
    {d d' : Draw (List (Cell σ) × List Value)} {s : List (Cell σ) × List Value}
    (hasks : x.answer? m = none) (hdraw : Pulled m (before, source) g d)
    (h : x.turn m d = .again s g') (rest : Pulled m s g' d') : Pulled m (x :: before, source) g d'

/-! ## The equations of a draw -/

section Equations

variable {m : Machine σ}

theorem cellProducer_nil (source : List Value) (g : Graph) :
    m.cellProducer ([], source) g = ⟨source.head?.map .ok, ([], source.tail), g⟩ := by
  cases source <;> rfl

theorem cellProducer_answered {x y : Cell σ} {r : Option Value} (h : x.answer? m = some (r, y))
    (before : List (Cell σ)) (source : List Value) (g : Graph) :
    m.cellProducer (x :: before, source) g = ⟨r.map .ok, (y :: before, source), g⟩ := by
  obtain ⟨s, ⟨held, gathered, emitted, exhausted⟩⟩ := x
  cases held with
  | cons v l =>
    cases h
    simp [Machine.cellProducer, run_cons, runOffered, offer, takeOne]
  | nil =>
    cases exhausted with
    | true =>
      cases h
      simp [Machine.cellProducer, run_cons, runOffered, offer]
    | false =>
      simp only [Cell.answer?, Bool.false_eq_true, if_false] at h
      split at h
      · rename_i quota hk
        split at h
        · rename_i hmet
          cases h
          simp [Machine.cellProducer, run_of_empty, hk, hmet]
        · cases h
      · cases h

/-- A cell that cannot answer holds nothing, is not at its end and, if it is a limit, is not met. -/
theorem Cell.of_answer?_eq_none {x : Cell σ} (h : x.answer? m = none) :
    x.stage.buffer = [] ∧ x.stage.exhausted = false ∧
      ∀ quota, m.kind x.step = .limiting quota → x.stage.emitted < quota := by
  obtain ⟨s, ⟨held, gathered, emitted, exhausted⟩⟩ := x
  cases held with
  | cons v l => cases h
  | nil =>
    cases exhausted with
    | true => cases h
    | false =>
      refine ⟨rfl, rfl, fun quota hk => ?_⟩
      by_contra hmet
      simp [Cell.answer?, hk, Nat.le_of_not_lt hmet] at h

/-- A cell that cannot answer draws once from those before it and makes a turn. -/
theorem cellProducer_turn (hm : m.Keeps m.kind) {x : Cell σ} (h : x.answer? m = none)
    (before : List (Cell σ)) (source : List Value) (g : Graph)
    {d : Draw (List (Cell σ) × List Value)} (hd : m.cellProducer (before, source) g = d) :
    m.cellProducer (x :: before, source) g =
      match x.turn m d with
      | .finished d' => d'
      | .again s g' => m.cellProducer s g' := by
  obtain ⟨hb, hx, hlimit⟩ := Cell.of_answer?_eq_none h
  obtain ⟨s, ⟨held, gathered, emitted, exhausted⟩⟩ := x
  dsimp only at hb hx hlimit
  subst hb hx
  obtain ⟨r, ⟨ys, rest⟩, g'⟩ := d
  cases hk : m.kind s with
  | limiting quota =>
    rw [cellProducer_limit hm ⟨hk, rfl⟩ (hlimit quota hk) rfl before source g hd]
    simp only [Cell.turn, hk]
  | expanding =>
    have hrun := run_unroll hm before source (expandInto m takeOne)
      (none, ⟨s, ⟨[], gathered, emitted, false⟩⟩) g hd
    simp only [Machine.cellProducer, run_of_empty, hk, hrun, Cell.turn]
    cases r with
    | none => rfl
    | some r =>
      cases r with
      | error e => rfl
      | ok v =>
        have hkind : m.kind (m.expand s v g').state = .expanding := (hm.expand s v g').trans hk
        simp only [expandInto]
        cases ho : (m.expand s v g').result with
        | error e => simp [runOn, takeOne, Run.expanded]
        | ok l =>
          cases l with
          | cons w l => simp [offer, runOn, takeOne, Run.expanded, run_cons, runOffered]
          | nil => simp [offer, runOn, run_of_empty, hkind]
  | gathering =>
    have hrun := run_unroll hm before source (gatherInto takeOne)
      (none, ⟨s, ⟨[], gathered, emitted, false⟩⟩) g hd
    simp only [Machine.cellProducer, run_of_empty, hk, hrun, Cell.turn]
    cases r with
    | none =>
      simp only [Run.released, Bool.not_true, Bool.false_eq_true, if_false]
      cases ho : (m.release s gathered.reverse g').result with
      | error e => rfl
      | ok l => simp [run_cons, runOffered]
    | some r =>
      cases r with
      | error e => simp [gatherInto, runOn, takeOne, Run.released]
      | ok v => simp [gatherInto, runOn, run_of_empty, hk]

end Equations

/-! ## Every pull comes to an end -/

section Ending

variable {m : Machine σ}

/-- What must have happened for another turn to follow. -/
theorem Cell.of_turn_again {x : Cell σ} {d : Draw (List (Cell σ) × List Value)}
    {s : List (Cell σ) × List Value} {g : Graph} (h : x.turn m d = .again s g) :
    (∃ v l, m.kind x.step = .expanding ∧ d.result = some (.ok v) ∧
        (m.expand x.step v d.graph).result = .ok l ∧ g = (m.expand x.step v d.graph).graph ∧
        s = (⟨(m.expand x.step v d.graph).state, { x.stage with buffer := l }⟩ :: d.state.1,
          d.state.2)) ∨
      (∃ v, m.kind x.step = .gathering ∧ d.result = some (.ok v) ∧ g = d.graph ∧
        s = ({ x with stage := { x.stage with gathered := v :: x.stage.gathered } } :: d.state.1,
          d.state.2)) ∨
      ∃ l y, m.kind x.step = .gathering ∧ d.result = none ∧
        s = (⟨y, { x.stage with gathered := [], exhausted := true, buffer := l }⟩ :: d.state.1,
          d.state.2) := by
  unfold Cell.turn at h
  dsimp only at h
  split at h
  · cases h
  · cases h
  · cases h
  · rename_i v hk hr
    split at h
    · cases h
    · rename_i l hl
      cases h
      exact .inl ⟨v, l, hk, hr, hl, rfl, rfl⟩
  · rename_i v hk hr
    cases h
    exact .inr (.inl ⟨v, hk, hr, rfl, rfl⟩)
  · rename_i hk hr
    split at h
    · cases h
    · cases h
      exact .inr (.inr ⟨_, _, hk, hr, rfl⟩)

/-- A step that expands has drawn a value. -/
theorem Cell.turn_expanding {x : Cell σ} (hk : m.kind x.step = .expanding)
    {d : Draw (List (Cell σ) × List Value)} {v : Value} (hd : d.result = some (.ok v)) :
    x.turn m d =
      let o := m.expand x.step v d.graph
      match o.result with
      | .error e => .finished ⟨some (.error e), (⟨o.state, x.stage⟩ :: d.state.1, d.state.2), o.graph⟩
      | .ok l => .again (⟨o.state, { x.stage with buffer := l }⟩ :: d.state.1, d.state.2) o.graph := by
  simp only [Cell.turn, hk, hd]

theorem Cell.of_turn_again_expanding {x : Cell σ} (hk : m.kind x.step = .expanding)
    {d : Draw (List (Cell σ) × List Value)} {s : List (Cell σ) × List Value} {g : Graph}
    (h : x.turn m d = .again s g) :
    ∃ v l, d.result = some (.ok v) ∧ (m.expand x.step v d.graph).result = .ok l ∧
      g = (m.expand x.step v d.graph).graph ∧
      s = (⟨(m.expand x.step v d.graph).state, { x.stage with buffer := l }⟩ :: d.state.1,
        d.state.2) := by
  obtain ⟨v, l, -, h⟩ | ⟨v, hk', -⟩ | ⟨l, y, hk', -⟩ := Cell.of_turn_again h
  · exact ⟨v, l, h⟩
  · cases hk.symm.trans hk'
  · cases hk.symm.trans hk'

theorem Cell.of_turn_again_gathering {x : Cell σ} (hk : m.kind x.step = .gathering)
    {d : Draw (List (Cell σ) × List Value)} {s : List (Cell σ) × List Value} {g : Graph}
    (h : x.turn m d = .again s g) :
    (∃ v, d.result = some (.ok v) ∧ g = d.graph ∧
        s = ({ x with stage := { x.stage with gathered := v :: x.stage.gathered } } :: d.state.1,
          d.state.2)) ∨
      ∃ l y, d.result = none ∧
        s = (⟨y, { x.stage with gathered := [], exhausted := true, buffer := l }⟩ :: d.state.1,
          d.state.2) := by
  obtain ⟨v, l, hk', -⟩ | ⟨v, -, h⟩ | ⟨l, y, -, h⟩ := Cell.of_turn_again h
  · cases hk.symm.trans hk'
  · exact .inl ⟨v, h⟩
  · exact .inr ⟨l, y, h⟩

theorem Cell.answer?_eq_none {x : Cell σ} (hb : x.stage.buffer = []) (hx : x.stage.exhausted = false)
    (hlimit : ∀ quota, m.kind x.step = .limiting quota → x.stage.emitted < quota) :
    x.answer? m = none := by
  simp only [Cell.answer?, hb, hx, Bool.false_eq_true, if_false]
  split
  · rename_i quota hk
    exact if_neg (Nat.not_le_of_lt (hlimit quota hk))
  · rfl

/-- A cell that holds a value or is at its end answers. -/
theorem Cell.exists_answer {x : Cell σ} (h : x.stage.buffer ≠ [] ∨ x.stage.exhausted = true) :
    ∃ r y, x.answer? m = some (r, y) := by
  cases ha : x.answer? m with
  | some a => exact ⟨a.1, a.2, rfl⟩
  | none =>
    obtain ⟨hb, hx, -⟩ := Cell.of_answer?_eq_none ha
    rcases h with h | h
    · exact absurd hb h
    · rw [hx] at h
      cases h

theorem pulled_of_answer {x : Cell σ} (h : x.stage.buffer ≠ [] ∨ x.stage.exhausted = true)
    (before : List (Cell σ)) (source : List Value) (g : Graph) :
    Pulled m (x :: before, source) g (m.cellProducer (x :: before, source) g) := by
  obtain ⟨r, y, ha⟩ := Cell.exists_answer (m := m) h
  exact cellProducer_answered ha before source g ▸ .answered ha before source g

variable (hm : m.Keeps m.kind)

include hm

/-- The turns lead to what a run for one result draws, and to nothing else. -/
theorem Pulled.eq_draw {s : List (Cell σ) × List Value} {g : Graph}
    {d : Draw (List (Cell σ) × List Value)} (h : Pulled m s g d) : m.cellProducer s g = d := by
  induction h with
  | seed source g => exact cellProducer_nil source g
  | answered h before source g => exact cellProducer_answered h before source g
  | finished hasks _ h ih => rw [cellProducer_turn hm hasks _ _ _ ih, h]
  | again hasks _ h _ ih ih' =>
    rw [cellProducer_turn hm hasks _ _ _ ih, h]
    exact ih'

/-- A pull ends if the one that its first turn makes does and what may follow that turn does. -/
theorem pulled_of_turn {x : Cell σ} (h : x.answer? m = none) {before : List (Cell σ)}
    {source : List Value} {g : Graph}
    (hbefore : Pulled m (before, source) g (m.cellProducer (before, source) g))
    (hagain : ∀ s g', x.turn m (m.cellProducer (before, source) g) = .again s g' →
      Pulled m s g' (m.cellProducer s g')) :
    Pulled m (x :: before, source) g (m.cellProducer (x :: before, source) g) := by
  rw [cellProducer_turn hm h before source g rfl]
  cases hturn : x.turn m (m.cellProducer (before, source) g) with
  | finished d => exact .finished h hbefore hturn
  | again s g' => exact .again h hbefore hturn (hagain s g' hturn)

theorem length_draw (s : List (Cell σ) × List Value) (g : Graph) :
    (m.cellProducer s g).state.1.length = s.1.length :=
  (Drawn.cons g (.nil _)).length_eq hm

variable {n : Nat} (ih : ∀ s : List (Cell σ) × List Value, s.1.length = n →
  ∀ g, Pulled m s g (m.cellProducer s g))

include ih

/-- A step that expands goes from input to input; the inputs that make nothing come to an end because
drawing from the cells before it does. -/
theorem pulled_expanding {s s' : List (Cell σ) × List Value}
    {b : Option (Except Error Value) × Cell σ} {g : Graph}
    {q : Reply (Option (Except Error Value) × Cell σ)} {l : List (Option (Except Error Value))}
    (h : Feeds m.cellProducer (expandInto m takeOne) s b g l s' q) (hlength : s.1.length = n)
    (hb : b.2.stage.buffer = []) (hx : Unspent m .expanding b.2) :
    Pulled m (b.2 :: s.1, s.2) g (m.cellProducer (b.2 :: s.1, s.2) g) := by
  -- the induction is on the draws that a run offers to `expandInto`, one for each turn
  induction h with
  | @done s b g hnone =>
    refine pulled_of_turn hm (Cell.answer?_eq_none hb hx.2 (by simp [hx.1])) (ih s hlength g) ?_
    intro s' g' hturn
    obtain ⟨v, l, hr, -⟩ := Cell.of_turn_again_expanding hx.1 hturn
    cases hnone.symm.trans hr
  | @enough s b g r hsome henough =>
    refine pulled_of_turn hm (Cell.answer?_eq_none hb hx.2 (by simp [hx.1])) (ih s hlength g) ?_
    intro s' g' hturn
    obtain ⟨v, l, hr, hl, rfl, rfl⟩ := Cell.of_turn_again_expanding hx.1 hturn
    cases hsome.symm.trans hr
    refine pulled_of_answer (.inl ?_) _ _ _
    rintro rfl
    simp [expandInto, hl, offer] at henough
  | @more s s' b g r q q' l hsome hreply hmore hrest ih' =>
    refine pulled_of_turn hm (Cell.answer?_eq_none hb hx.2 (by simp [hx.1])) (ih s hlength g) ?_
    intro s' g' hturn
    obtain ⟨v, l, hr, hl, rfl, rfl⟩ := Cell.of_turn_again_expanding hx.1 hturn
    cases hsome.symm.trans hr
    cases l with
    | cons w l => exact pulled_of_answer (.inl (List.cons_ne_nil w l)) _ _ _
    | nil =>
      subst hreply
      simp only [expandInto, hl, offer] at ih' ⊢
      exact ih' ((length_draw hm s g).trans hlength) trivial ⟨(hm.expand _ _ _).trans hx.1, hx.2⟩

/-- A barrier gathers until drawing from the cells before it comes to an end. -/
theorem pulled_gathering {s s' : List (Cell σ) × List Value}
    {b : Option (Except Error Value) × Cell σ} {g : Graph}
    {q : Reply (Option (Except Error Value) × Cell σ)} {l : List (Option (Except Error Value))}
    (h : Feeds m.cellProducer (gatherInto takeOne) s b g l s' q) (hlength : s.1.length = n)
    (hb : b.2.stage.buffer = []) (hx : Unspent m .gathering b.2) :
    Pulled m (b.2 :: s.1, s.2) g (m.cellProducer (b.2 :: s.1, s.2) g) := by
  induction h with
  | @done s b g hnone =>
    refine pulled_of_turn hm (Cell.answer?_eq_none hb hx.2 (by simp [hx.1])) (ih s hlength g) ?_
    intro s' g' hturn
    obtain ⟨v, hr, -⟩ | ⟨l, y, -, rfl⟩ := Cell.of_turn_again_gathering hx.1 hturn
    · cases hnone.symm.trans hr
    · -- what the barrier releases may be nothing, but it is at its end
      exact pulled_of_answer (.inr rfl) _ _ _
  | enough hsome henough =>
    -- an error, which is the end of the pull
    refine pulled_of_turn hm (Cell.answer?_eq_none hb hx.2 (by simp [hx.1])) (ih _ hlength _) ?_
    intro s' g' hturn
    obtain ⟨v, hr, -⟩ | ⟨l, y, hr, -⟩ := Cell.of_turn_again_gathering hx.1 hturn
    · cases hsome.symm.trans hr
      cases henough
    · cases hsome.symm.trans hr
  | @more s s' b g r q q' l hsome hreply hmore hrest ih' =>
    refine pulled_of_turn hm (Cell.answer?_eq_none hb hx.2 (by simp [hx.1])) (ih s hlength g) ?_
    intro s' g' hturn
    obtain ⟨v, hr, rfl, rfl⟩ | ⟨l, y, hr, -⟩ := Cell.of_turn_again_gathering hx.1 hturn
    · cases hsome.symm.trans hr
      subst hreply
      exact ih' ((length_draw hm s g).trans hlength) hb hx
    · cases hsome.symm.trans hr

omit ih

/-- Every pull ends after finitely many turns, and so do all the pulls that it makes. -/
theorem pulled (s : List (Cell σ) × List Value) (g : Graph) : Pulled m s g (m.cellProducer s g) := by
  obtain ⟨xs, source⟩ := s
  induction hn : xs.length generalizing xs source g with
  | zero =>
    obtain rfl := List.length_eq_zero_iff.1 hn
    exact cellProducer_nil (m := m) source g ▸ .seed source g
  | succ n ih =>
    obtain ⟨x, before, rfl⟩ := List.exists_cons_of_length_eq_add_one hn
    have hlength : before.length = n := Nat.succ.inj hn
    have ih' (s : List (Cell σ) × List Value) (hs : s.1.length = n) (g : Graph) :
        Pulled m s g (m.cellProducer s g) := ih g s.1 s.2 hs
    cases ha : x.answer? m with
    | some a => exact cellProducer_answered ha before source g ▸ .answered ha before source g
    | none =>
      obtain ⟨hb, hx, -⟩ := Cell.of_answer?_eq_none ha
      cases hk : m.kind x.step with
      | limiting quota =>
        refine pulled_of_turn hm ha (ih' _ hlength g) fun s g' hturn => ?_
        obtain ⟨v, l, hk', -⟩ | ⟨v, hk', -⟩ | ⟨l, y, hk', -⟩ := Cell.of_turn_again hturn <;>
          cases hk.symm.trans hk'
      | expanding =>
        obtain ⟨l, hl⟩ := run_feeds hm before source (expandInto m takeOne) (none, x) g
        exact pulled_expanding hm ih' hl hlength hb ⟨hk, hx⟩
      | gathering =>
        obtain ⟨l, hl⟩ := run_feeds hm before source (gatherInto takeOne) (none, x) g
        exact pulled_gathering hm ih' hl hlength hb ⟨hk, hx⟩

end Ending

/-! ## Nothing comes after the end -/

/-- Nothing is left and the last cell knows it. -/
def AtEnd : List (Cell σ) × List Value → Prop
  | ([], source) => source = []
  | (x :: _, _) => x.stage.buffer = [] ∧ x.stage.exhausted = true

section AtEnd

variable {m : Machine σ}

/-- A pull that brings nothing finds that nothing is left. -/
theorem Pulled.atEnd {s : List (Cell σ) × List Value} {g : Graph}
    {d : Draw (List (Cell σ) × List Value)} (h : Pulled m s g d) (hnone : d.result = none) :
    AtEnd d.state := by
  induction h with
  | seed source g =>
    cases source with
    | nil => rfl
    | cons v l => cases hnone
  | @answered x y r h before source g =>
    obtain rfl : r = none := Option.map_eq_none_iff.1 hnone
    unfold Cell.answer? at h
    split at h
    · cases h
    · rename_i hb
      split at h
      · rename_i hx
        cases h
        exact ⟨hb, hx⟩
      · split at h
        · split at h
          · cases h
            exact ⟨hb, rfl⟩
          · cases h
        · cases h
  | @finished x before source g d d' hasks _ h ih =>
    obtain ⟨hb, -, -⟩ := Cell.of_answer?_eq_none hasks
    unfold Cell.turn at h
    dsimp only at h
    split at h
    · cases h
      rw [show d.result = none from hnone]
      exact ⟨hb, rfl⟩
    · cases h
      cases hnone
    · cases h
      exact ⟨hb, rfl⟩
    · split at h
      · cases h
        cases hnone
      · cases h
    · cases h
    · split at h
      · cases h
        cases hnone
      · cases h
  | again _ _ _ _ _ ih' => exact ih' hnone

/-- Once nothing is left a pull changes nothing, on whatever graph it comes. -/
theorem AtEnd.draw {s : List (Cell σ) × List Value} (h : AtEnd s) (g : Graph) :
    m.cellProducer s g = ⟨none, s, g⟩ := by
  obtain ⟨_ | ⟨x, before⟩, source⟩ := s
  · obtain rfl : source = [] := h
    rfl
  · refine cellProducer_answered (r := none) ?_ before source g
    simp only [Cell.answer?, h.1, h.2, if_true]

/-- A pull on steps that brings nothing leaves them at the end. -/
theorem producer_atEnd (hm : m.Keeps m.kind) {s : List σ × Flow} {g : Graph}
    (hnone : (m.producer s g).result = none) :
    ∃ c, AtEnd c ∧ (m.producer s g).state = ofCells c :=
  ⟨_, (pulled hm (cells s.1 s.2.stages, s.2.source) g).atEnd hnone, rfl⟩

theorem AtEnd.producer {c : List (Cell σ) × List Value} (h : AtEnd c) (g : Graph) :
    m.producer (ofCells c) g = ⟨none, ofCells c, g⟩ := by
  have hc : ofCells c = ofCells c := rfl
  have hresult := m.producer_agree.result hc g
  have hgraph := m.producer_agree.graph hc g
  have hstate := m.producer_agree.state hc g
  rw [h.draw g] at hresult hgraph hstate
  generalize m.producer (ofCells c) g = d at hresult hgraph hstate
  obtain ⟨r, s, g'⟩ := d
  dsimp only at hresult hgraph hstate
  rw [hresult, hgraph, hstate]

/-- At the end a pull evaluates nothing. -/
theorem AtEnd.evaluations {c : List (Cell σ) × List Value} (h : AtEnd c) (g : Graph) :
    (ofCells c).2.evaluations m (ofCells c).1 g = 0 := by
  obtain ⟨xs, source⟩ := c
  have hend : AtEnd (xs.map fun x => ⟨(x.step, 0), x.stage⟩, source) := by
    cases xs with
    | nil => exact h
    | cons x before => exact h
  have hcells : ofCells (xs.map fun x => ⟨(x.step, 0), x.stage⟩, source) =
      (untallied (ofCells (xs, source)).1, (ofCells (xs, source)).2) := by
    simp [ofCells, untallied, Function.comp_def]
  have hpull := hend.producer (m := m.tallied) g
  rw [hcells] at hpull
  have hsteps : ((ofCells (xs, source)).2.pull m.tallied (untallied (ofCells (xs, source)).1) g).steps =
      untallied (ofCells (xs, source)).1 := congr_arg (·.state.1) hpull
  rw [Flow.evaluations, hsteps]
  simp [untallied, Function.comp_def]

end AtEnd

/-! ## Pulls one after another -/

section Sequences

variable {S S' : Type} {p : Producer S}

/-- The `k`-th of draws that come one after another, each on the next of these graphs. -/
def Producer.draw (p : Producer S) : (Nat → Graph) → S → Nat → Draw S
  | graphs, s, 0 => p s (graphs 0)
  | graphs, s, k + 1 => p.draw (fun i => graphs (i + 1)) (p s (graphs 0)).state k

/-- Of the draws one brings nothing, and it is the first that does. -/
def Producer.Ends (p : Producer S) (graphs : Nat → Graph) (s : S) (n : Nat) : Prop :=
  (∀ k < n, (p.draw graphs s k).result ≠ none) ∧ (p.draw graphs s n).result = none

theorem Producer.Agree.draw {p' : Producer S'} {R : S → S' → Prop} (hp : p.Agree p' R)
    (graphs : Nat → Graph) {s : S} {s' : S'} (hs : R s s') (k : Nat) :
    (p.draw graphs s k).result = (p'.draw graphs s' k).result := by
  induction k generalizing graphs s s' with
  | zero => exact hp.result hs (graphs 0)
  | succ k ih => exact ih _ (hp.state hs (graphs 0))

theorem Producer.draw_last (graphs : Nat → Graph) (s : S) (k : Nat) :
    ∃ s', p.draw graphs s k = p s' (graphs k) := by
  induction k generalizing graphs s with
  | zero => exact ⟨s, rfl⟩
  | succ k ih => exact ih _ _

theorem Producer.draw_after (graphs : Nat → Graph) (s : S) (n k : Nat) :
    p.draw graphs s (n + 1 + k) =
      p.draw (fun i => graphs (n + 1 + i)) (p.draw graphs s n).state k := by
  induction n generalizing graphs s with
  | zero =>
    rw [Nat.add_right_comm]
    simp only [Producer.draw, Nat.zero_add, Nat.add_comm 1]
  | succ n ih =>
    rw [Nat.add_right_comm (n + 1) 1 k, Producer.draw, ih]
    simp only [Producer.draw, Nat.add_right_comm (n + 1) 1]

/-- Draws that bring nothing and change nothing do so for ever. -/
theorem Producer.draw_of_fixed {s : S} (h : ∀ g, p s g = ⟨none, s, g⟩) (graphs : Nat → Graph)
    (k : Nat) : p.draw graphs s k = ⟨none, s, graphs k⟩ := by
  induction k generalizing graphs with
  | zero => exact h (graphs 0)
  | succ k ih =>
    rw [Producer.draw, h]
    exact ih _

/-- Takes everything, and has the next result drawn on the next of the graphs. -/
def swapping : Consumer (Nat → Graph) :=
  fun graphs _ _ => ⟨fun i => graphs (i + 1), graphs 1, true⟩

theorem Feeds.ends {graphs : Nat → Graph} {s s' : S} {g : Graph}
    {l : List (Option (Except Error Value))} {q : Reply (Nat → Graph)}
    (h : Feeds p swapping s graphs g l s' q) (hg : graphs 0 = g) : ∃ n, p.Ends graphs s n := by
  induction h with
  | @done s graphs g hnone =>
    subst hg
    exact ⟨0, fun k hk => absurd hk (Nat.not_lt_zero k), hnone⟩
  | enough _ henough => cases henough
  | @more s s' graphs g r q q' l hsome hreply _ _ ih =>
    subst hg hreply
    obtain ⟨n, hbefore, hnone⟩ := ih rfl
    refine ⟨n + 1, fun k hk => ?_, hnone⟩
    cases k with
    | zero =>
      rw [Producer.draw, hsome]
      exact Option.some_ne_none r
    | succ k => exact hbefore k (Nat.lt_of_succ_lt_succ hk)

/-- Whatever becomes of the graph between the pulls, one of them brings nothing. -/
theorem exists_ends {m : Machine σ} (hm : m.Keeps m.kind) (graphs : Nat → Graph) (steps : List σ)
    (seeds : List Value) : ∃ n, m.producer.Ends graphs (steps, .start seeds steps.length) n := by
  obtain ⟨_, h⟩ := run_feeds hm (freshCells steps) seeds swapping graphs (graphs 0)
  obtain ⟨n, hbefore, hnone⟩ := h.ends rfl
  have hcells (k : Nat) := m.producer_agree.draw graphs (ofCells_fresh steps seeds).symm k
  exact ⟨n, fun k hk => by rw [hcells]; exact hbefore k hk, (hcells n).trans hnone⟩

end Sequences

end GraphTraversal
