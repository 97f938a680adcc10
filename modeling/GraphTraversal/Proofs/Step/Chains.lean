import GraphTraversal.Proofs.Run.Simulation
import GraphTraversal.Proofs.Step.DepthFirst
import GraphTraversal.Proofs.Step.Failures
import GraphTraversal.Proofs.Step.Routing

/-! # Chains

Steps in a row that only read expand a value little by little: what a step has not yet handed on waits in
its stage.  If none of what waits fails on the way, it comes in the order in which the steps, taken one
after another, would bring it, before anything else is drawn; and a row that holds nothing hands on what
it draws as the steps would.
-/

namespace GraphTraversal

/-! ## Spreading without failures -/

namespace Results

variable {f : Value → Except Error (List Value)}

theorem ofValues_append (l l' : List Value) : ofValues (l ++ l') = ofValues l ++ ofValues l' :=
  List.map_append

theorem ofValues_inj {l l' : List Value} (h : ofValues l = ofValues l') : l = l' := by
  rw [← values_ofValues l, h, values_ofValues]

/-- What comes of a value and of what follows it. -/
theorem spread_cons_ok {v : Value} {l : Results} {w : List Value}
    (h : spread f (.ok v :: l) = ofValues w) :
    ∃ w₁ w₂, f v = .ok w₁ ∧ spread f l = ofValues w₂ ∧ w = w₁ ++ w₂ := by
  rw [spread] at h
  cases hv : f v with
  | error e =>
    rw [hv] at h
    cases w <;> cases h
  | ok l₁ =>
    rw [hv] at h
    obtain ⟨w₁, w₂, rfl, hw₁, hw₂⟩ := List.map_eq_append_iff.1 h.symm
    obtain rfl : w₁ = l₁ := ofValues_inj hw₁
    exact ⟨w₁, w₂, rfl, hw₂.symm, rfl⟩

/-- Outputs without an error come from inputs without one. -/
theorem exists_of_spread {l : Results} {w : List Value} (h : spread f l = ofValues w) :
    ∃ u, l = ofValues u := by
  induction l generalizing w with
  | nil => exact ⟨[], rfl⟩
  | cons r l ih =>
    cases r with
    | error e => cases w <;> cases h
    | ok v =>
      obtain ⟨-, w₂, -, h, -⟩ := spread_cons_ok h
      obtain ⟨u, rfl⟩ := ih h
      exact ⟨v :: u, rfl⟩

end Results

namespace Step

theorem stream_of_expanding {s : Step} (hs : s.kind = .expanding) (g : Graph) (l : Results) :
    s.stream g l = Results.spread (fun v => (s.expand v g).result) l := by
  simp only [stream, hs]

/-! ## Chains -/

/-- A step that can stand in a chain: on the machine of height `n` it expands one value at a time and
leaves the graph alone. -/
structure Plain (n : Nat) (t : Step) : Prop where
  readOnly : t.ReadOnly
  kind : t.kind = .expanding
  height : t.height ≤ n

/-- The open cell of a step, however often it has been evaluated. -/
structure OpenAt (t : Step) (x : Cell Step) : Prop where
  step : x.step.rewound = t.rewound
  opened : x.stage.exhausted = false

/-- Cells in a row, for steps given from the last to the first, and the values that will come of what
they hold on the graph `g`. -/
inductive Chain (g : Graph) : List Step → List (Cell Step) → List Value → Prop where
  | nil : Chain g [] [] []
  | cons {t : Step} {x : Cell Step} {shape : List Step} {xs : List (Cell Step)} {u w : List Value}
    (hx : OpenAt t x) (hxs : Chain g shape xs u)
    (hw : Results.spread (fun v => (t.expand v g).result) (.ofValues u) = .ofValues w) :
    Chain g (t :: shape) (x :: xs) (x.stage.buffer ++ w)

abbrev Idle (shape : List Step) (xs : List (Cell Step)) : Prop :=
  List.Forall₂ (fun t x => OpenAt t x ∧ x.stage.buffer = []) shape xs

theorem Idle.chain {shape : List Step} {xs : List (Cell Step)} (h : Idle shape xs) (g : Graph) :
    Chain g shape xs [] := by
  induction h with
  | nil => exact .nil
  | @cons t x shape xs hx _ ih =>
    have hchain := Chain.cons hx.1 ih (w := []) rfl
    rwa [hx.2] at hchain

theorem idle_freshCells (steps : List Step) : Idle steps.reverse (freshCells steps) := by
  rw [freshCells, ← List.map_reverse, Idle, List.forall₂_map_right_iff]
  exact List.forall₂_same.2 fun t _ => ⟨⟨rfl, rfl⟩, rfl⟩

/-- What is drawn from a chain over other cells: the first of the values that will come, or, when none
will, what is drawn when the chain holds nothing. -/
def Settles (n : Nat) (shape : List Step) (s : List (Cell Step) × List Value) (g : Graph)
    (d : Draw (List (Cell Step) × List Value)) : List Value → Prop
  | [] => ∃ xs, Idle shape xs ∧ d = (machine n).cellProducer (xs ++ s.1, s.2) g
  | v :: w => ∃ xs, Chain g shape xs w ∧ d = ⟨some (.ok v), (xs ++ s.1, s.2), g⟩

section Chains

variable {n : Nat} {t : Step} {x : Cell Step} {shape : List Step} {g : Graph}
  {s s' : List (Cell Step) × List Value}

theorem OpenAt.kind (hx : OpenAt t x) : (machine n).kind x.step = t.kind := by
  rw [machine_layered.kind, ← kind_rewound, hx.step, kind_rewound]

/-- It expands as its step, and stays open. -/
theorem OpenAt.expand (hx : OpenAt t x) (hn : t.height ≤ n) (v : Value) (g : Graph) :
    ((machine n).expand x.step v g).seen = (t.expand v g).seen ∧
      ∀ l, OpenAt t ⟨((machine n).expand x.step v g).state, { x.stage with buffer := l }⟩ := by
  have hheight : x.step.height ≤ n := by
    rwa [← height_rewound, hx.step, height_rewound]
  obtain ⟨hresult, hgraph⟩ := machine_expand_eq hheight v g
  obtain ⟨hresult', hgraph'⟩ := expand_of_rewound hx.step v g
  have hstep := (machine_keeps n).expand x.step v g
  exact ⟨Prod.ext (hresult.trans hresult') (hgraph.trans hgraph'),
    fun _ => ⟨hstep.trans hx.step, hx.opened⟩⟩

theorem OpenAt.waits (ht : Plain n t) (hx : OpenAt t x) (hb : x.stage.buffer = []) :
    x.Waits (machine n) :=
  ⟨hx.kind.trans ht.kind, hb, hx.opened⟩

theorem Idle.waits (hshape : ∀ t ∈ shape, Plain n t) {xs : List (Cell Step)} (h : Idle shape xs) :
    ∀ x ∈ xs, x.Waits (machine n) := by
  induction h with
  | nil => exact nofun
  | @cons t x shape xs hx _ ih =>
    obtain ⟨ht, hshape⟩ := List.forall_mem_cons.1 hshape
    exact List.forall_mem_cons.2 ⟨hx.1.waits ht hx.2, ih hshape⟩

/-- A turn on a value that does not fail takes up its outputs. -/
theorem OpenAt.turn (ht : Plain n t) (hx : OpenAt t x) {d : Draw (List (Cell Step) × List Value)}
    {v : Value} (hd : d.result = some (.ok v)) {l : List Value}
    (hl : (t.expand v d.graph).result = .ok l) :
    ∃ y, OpenAt t y ∧ y.stage.buffer = l ∧
      x.turn (machine n) d = .again (y :: d.state.1, d.state.2) d.graph := by
  obtain ⟨hseen, hopen⟩ := hx.expand ht.height v d.graph
  obtain ⟨hresult, hgraph⟩ := Prod.mk.inj hseen
  refine ⟨_, hopen l, rfl, ?_⟩
  rw [Cell.turn_expanding (hx.kind.trans ht.kind) hd]
  simp only [hresult.trans hl, hgraph, ht.readOnly.graph_expand]

/-- What the last cell holds goes first. -/
theorem settles_of_buffer (hx : OpenAt t x) {v : Value} {l : List Value}
    (hb : x.stage.buffer = v :: l) {xs : List (Cell Step)} {u w : List Value}
    (hxs : Chain g shape xs u)
    (hw : Results.spread (fun v => (t.expand v g).result) (.ofValues u) = .ofValues w) :
    Settles n (t :: shape) s g ((machine n).cellProducer (x :: (xs ++ s.1), s.2) g) (v :: (l ++ w)) := by
  let y : Cell Step := { x with stage := { x.stage with buffer := l } }
  have hanswer : x.answer? (machine n) = some (some v, y) := by
    simp only [Cell.answer?, hb]
    rfl
  exact ⟨y :: xs, .cons (x := y) ⟨hx.step, hx.opened⟩ hxs hw, cellProducer_answered hanswer _ _ _⟩

/-- A cell that holds nothing passes on what settles before it, given what comes once it has taken up the
outputs of a first value. -/
theorem settles_of_before (ht : Plain n t) (hx : OpenAt t x) (hb : x.stage.buffer = [])
    {before : List (Cell Step) × List Value} {g₀ : Graph} {u w : List Value}
    (hbefore : Settles n shape s g ((machine n).cellProducer before g₀) u)
    (hw : Results.spread (fun v => (t.expand v g).result) (.ofValues u) = .ofValues w)
    (hnext : ∀ {v u' y ys w'}, u = v :: u' → OpenAt t y → Chain g shape ys u' →
      Results.spread (fun v => (t.expand v g).result) (.ofValues u') = .ofValues w' →
        Settles n (t :: shape) s g ((machine n).cellProducer (y :: (ys ++ s.1), s.2) g)
          (y.stage.buffer ++ w')) :
    Settles n (t :: shape) s g ((machine n).cellProducer (x :: before.1, before.2) g₀) w := by
  have hm := machine_keeps_kind n
  cases u with
  | nil =>
    obtain rfl : w = [] := (Results.ofValues_inj (l := []) hw).symm
    obtain ⟨ys, hidle, hdraw⟩ := hbefore
    refine ⟨x :: ys, .cons ⟨hx, hb⟩ hidle, ?_⟩
    rw [List.cons_append, cellProducer_turn hm (hx.waits ht hb).asks _ _ _ hdraw,
      cellProducer_turn hm (hx.waits ht hb).asks _ _ _ rfl]
  | cons v u =>
    obtain ⟨l, w', hl, hw', rfl⟩ := Results.spread_cons_ok hw
    obtain ⟨ys, hys, hdraw⟩ := hbefore
    obtain ⟨y, hy, rfl, hturn⟩ := hx.turn ht (d := ⟨some (.ok v), (ys ++ s.1, s.2), g⟩) rfl hl
    rw [cellProducer_turn hm (hx.waits ht hb).asks _ _ _ hdraw, hturn]
    exact hnext rfl hy hys hw'

/-- A cell that holds nothing draws from the chain before it until something comes of what it draws, or
nothing is left in the chain. -/
theorem settles_cons (ht : Plain n t)
    (ih : ∀ {xs w}, Chain g shape xs w →
      Settles n shape s g ((machine n).cellProducer (xs ++ s.1, s.2) g) w)
    (hx : OpenAt t x) (hb : x.stage.buffer = []) {xs : List (Cell Step)} {u w : List Value}
    (hxs : Chain g shape xs u)
    (hw : Results.spread (fun v => (t.expand v g).result) (.ofValues u) = .ofValues w) :
    Settles n (t :: shape) s g ((machine n).cellProducer (x :: (xs ++ s.1), s.2) g) w := by
  induction u generalizing x xs w with
  | nil => exact settles_of_before ht hx hb (ih hxs) hw nofun
  | cons v u ihu =>
    refine settles_of_before ht hx hb (ih hxs) hw ?_
    rintro _ _ y ys w' ⟨⟩ hy hys hw'
    cases hl : y.stage.buffer with
    | nil => exact ihu hy hl hys hw'
    | cons v l => exact settles_of_buffer hy hl hys hw'

/-- A chain brings what will come of what it holds before it draws from the cells before it. -/
theorem settles_of_chain (hshape : ∀ t ∈ shape, Plain n t) {xs : List (Cell Step)} {w : List Value}
    (h : Chain g shape xs w) (s : List (Cell Step) × List Value) :
    Settles n shape s g ((machine n).cellProducer (xs ++ s.1, s.2) g) w := by
  induction shape generalizing xs w with
  | nil =>
    cases h
    exact ⟨[], .nil, rfl⟩
  | cons t shape ih =>
    obtain ⟨ht, hshape⟩ := List.forall_mem_cons.1 hshape
    cases h with
    | @cons _ x _ xs u w hx hxs hw =>
      cases hb : x.stage.buffer with
      | nil => exact settles_cons ht (ih hshape) hx hb hxs hw
      | cons v l => exact settles_of_buffer hx hb hxs hw

/-- A value that comes to a chain goes through it as through the steps one after another. -/
theorem settles_of_idle (hshape : ∀ t ∈ shape, Plain n t) {xs : List (Cell Step)} (h : Idle shape xs)
    {v : Value} {g' : Graph} (hdraw : (machine n).cellProducer s g = ⟨some (.ok v), s', g'⟩)
    {w : List Value} (hw : streams g' shape.reverse [.ok v] = .ofValues w) :
    Settles n shape s' g' ((machine n).cellProducer (xs ++ s.1, s.2) g) w := by
  induction h generalizing w with
  | nil =>
    obtain rfl : [v] = w := Results.ofValues_inj hw
    exact ⟨[], .nil, hdraw⟩
  | @cons t x shape xs hx _ ih =>
    have hall := hshape
    obtain ⟨ht, hshape⟩ := List.forall_mem_cons.1 hshape
    obtain ⟨hx, hb⟩ := hx
    rw [List.reverse_cons, streams_append] at hw
    have hspread : Results.spread (fun v => (t.expand v g').result)
        (streams g' shape.reverse [.ok v]) = .ofValues w := by
      rw [← hw]
      exact (stream_of_expanding ht.kind _ _).symm
    obtain ⟨u, hu⟩ := Results.exists_of_spread hspread
    rw [hu] at hspread
    exact settles_of_before ht hx hb (ih hshape hu) hspread fun _ hy hys hw' =>
      settles_of_chain hall (.cons hy hys hw') s'

end Chains

end Step

end GraphTraversal
