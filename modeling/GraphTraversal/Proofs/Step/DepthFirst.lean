import Mathlib.Data.List.Induction
import GraphTraversal.Proofs.Run.Turns
import GraphTraversal.Proofs.Step.Memory

/-! # Side effects happen depth first

A run hands on what its last steps hold before it takes up anything that waits further up.  So it does
what a recursive evaluator does, which follows each value through all later steps before it turns to the
next one: it delivers the same results and changes the graph in the same order.
-/

namespace GraphTraversal

abbrev Trace := Graph → Results × Graph

namespace Trace

def emit (l : Results) : Trace := fun g => (l, g)

/-- One after the other, the second on the graph that the first leaves. -/
def andThen (a b : Trace) : Trace := fun g =>
  let first := a g
  let second := b first.2
  (first.1 ++ second.1, second.2)

theorem andThen_assoc (a b c : Trace) : (a.andThen b).andThen c = a.andThen (b.andThen c) := by
  funext g
  simp [andThen]

def each (f : Value → Trace) : List Value → Trace
  | [] => emit []
  | v :: l => (f v).andThen (each f l)

end Trace

namespace Step

/-! ## The recursive evaluator -/

/-- Expands the value by the first step and follows each output in turn through the later steps, all the
way, before the next.  A failure is delivered in its place. -/
def depthFirst : List Step → Value → Trace
  | [], v => .emit [.ok v]
  | s :: later, v => fun g =>
    let o := s.expand v g
    match o.result with
    | .error e => ([.error e], o.graph)
    | .ok l => Trace.each (depthFirst later) l o.graph

/-- What becomes of what a pull brought to the later steps. -/
def follow (later : List Step) : Option (Except Error Value) → Trace
  | none => .emit []
  | some (.error e) => .emit [.error e]
  | some (.ok v) => depthFirst later v

/-- Where cursors stand makes no difference. -/
theorem depthFirst_of_rewound {steps steps' : List Step}
    (h : steps.map rewound = steps'.map rewound) : depthFirst steps = depthFirst steps' := by
  induction steps generalizing steps' with
  | nil => rw [List.map_eq_nil_iff.1 h.symm]
  | cons s later ih =>
    cases steps' with
    | nil => cases h
    | cons s' later' =>
      obtain ⟨hs, hlater⟩ := List.cons_eq_cons.1 h
      funext v g
      obtain ⟨hresult, hgraph⟩ := expand_of_rewound hs v g
      simp only [depthFirst, hresult, hgraph, ih hlater]

theorem depthFirst_cons_error {s : Step} {v : Value} {g : Graph} {e : Error}
    (h : (s.expand v g).result = .error e) (later : List Step) :
    depthFirst (s :: later) v g = ([.error e], (s.expand v g).graph) := by
  simp only [depthFirst, h]

theorem depthFirst_cons_ok {s : Step} {v : Value} {g : Graph} {l : List Value}
    (h : (s.expand v g).result = .ok l) (later : List Step) :
    depthFirst (s :: later) v g = Trace.each (depthFirst later) l (s.expand v g).graph := by
  simp only [depthFirst, h]

/-- What a suspended run still has to do, if it is to be depth first: what the last step holds goes
first, then what the steps before it hold, and at last the source. -/
def pending (later : List Step) : List (Cell Step) → List Value → Trace
  | [], source => .each (depthFirst later) source
  | x :: before, source =>
    (Trace.each (depthFirst later) x.stage.buffer).andThen (pending (x.step :: later) before source)

theorem pending_of_rewound {later later' : List Step} (h : later.map rewound = later'.map rewound)
    (xs : List (Cell Step)) (source : List Value) :
    pending later xs source = pending later' xs source := by
  induction xs generalizing later later' with
  | nil => rw [pending, pending, depthFirst_of_rewound h]
  | cons x before ih =>
    have hall : (x.step :: later).map rewound = (x.step :: later').map rewound := by
      rw [List.map_cons, List.map_cons, h]
    rw [pending, pending, depthFirst_of_rewound h, ih hall]

/-- Behind a cell that holds nothing its step is one of the later steps, however it has been evaluated. -/
theorem pending_of_empty {x : Cell Step} (hb : x.stage.buffer = []) {s : Step}
    (hs : x.step.rewound = s.rewound) (later : List Step) (before : List (Cell Step))
    (source : List Value) : pending later (x :: before) source = pending (s :: later) before source := by
  have hall : (x.step :: later).map rewound = (s :: later).map rewound := by
    rw [List.map_cons, List.map_cons, hs]
  rw [pending, hb, ← pending_of_rewound hall]
  rfl

/-! ## Turns of a run -/

/-- Cells of steps that take one input at a time and are drawn from with the machine of height `n`; a
cell that is at its end has nothing before it. -/
def Orderly (n : Nat) : List (Cell Step) → List Value → Prop
  | [], _ => True
  | x :: before, source => x.step.kind = .expanding ∧ x.step.height ≤ n ∧
    (x.stage.exhausted = true → AtEnd (before, source)) ∧ Orderly n before source

theorem pending_of_atEnd {n : Nat} {xs : List (Cell Step)} {source : List Value}
    (hend : AtEnd (xs, source)) (h : Orderly n xs source) (later : List Step) :
    pending later xs source = .emit [] := by
  induction xs generalizing later with
  | nil =>
    obtain rfl : source = [] := hend
    rfl
  | cons x before ih =>
    obtain ⟨-, -, hx, hbefore⟩ := h
    rw [pending, hend.1, ih (hx hend.2) hbefore]
    rfl

/-- The step of a cell may have been evaluated in between. -/
theorem Orderly.cons {n : Nat} {x y : Cell Step} {before before' : List (Cell Step)}
    {source source' : List Value} (h : Orderly n (x :: before) source)
    (hy : y.step.rewound = x.step.rewound) (hend : y.stage.exhausted = true → AtEnd (before', source'))
    (hbefore : Orderly n before' source') : Orderly n (y :: before') source' := by
  obtain ⟨hk, hheight, -, -⟩ := h
  refine ⟨?_, ?_, hend, hbefore⟩
  · rw [← kind_rewound, hy, kind_rewound, hk]
  · rw [← height_rewound, hy, height_rewound]
    exact hheight

theorem machine_expand_eq {n : Nat} {s : Step} (hs : s.height ≤ n) (v : Value) (g : Graph) :
    ((machine n).expand s v g).result = (s.expand v g).result ∧
      ((machine n).expand s v g).graph = (s.expand v g).graph := by
  obtain ⟨hresult, -, hgraph, -⟩ := (machine_agree n s.height).expand
    ⟨rfl, hs, le_rfl, trivial, fun c _ => c.everywhere_true⟩ v (g := g) trivial
  exact ⟨eqUpTo_iff_eq.1 hresult, hgraph⟩

/-- A draw does the first part of what is pending: it brings a result to the later steps, and when that
has been followed to its end, what the draw leaves is pending. -/
def Serves (n : Nat) (s : List (Cell Step) × List Value) (g : Graph)
    (d : Draw (List (Cell Step) × List Value)) : Prop :=
  Orderly n d.state.1 d.state.2 ∧ ∀ later, pending later s.1 s.2 g =
    (follow later d.result).andThen (pending later d.state.1 d.state.2) d.graph

section Turns

variable {n : Nat} {x : Cell Step} {before : List (Cell Step)} {source : List Value} {g : Graph}
  {d : Draw (List (Cell Step) × List Value)} (hs : Orderly n (x :: before) source)

include hs

/-- What a cell answers by itself is the first that is pending. -/
theorem serves_of_answer {y : Cell Step} {r : Option Value}
    (h : x.answer? (machine n) = some (r, y)) (g : Graph) :
    Serves n (x :: before, source) g ⟨r.map .ok, (y :: before, source), g⟩ := by
  obtain ⟨t, ⟨held, gathered, emitted, exhausted⟩⟩ := x
  cases held with
  | cons v l =>
    cases h
    exact ⟨hs, fun later => congr_fun (Trace.andThen_assoc _ _ _) g⟩
  | nil =>
    cases exhausted with
    | true =>
      cases h
      exact ⟨hs, fun later => rfl⟩
    | false => simp [Cell.answer?, machine_layered.kind, hs.1] at h

variable (hasks : x.answer? (machine n) = none) (h : Serves n (before, source) g d)

include hasks h

/-- A turn that ends the pull has nothing to expand: what was drawn is an error or nothing, or the step
fails on it. -/
theorem serves_of_finished {d' : Draw (List (Cell Step) × List Value)}
    (hend : d.result = none → AtEnd d.state) (hturn : x.turn (machine n) d = .finished d') :
    Serves n (x :: before, source) g d' := by
  obtain ⟨hb, hx, -⟩ := Cell.of_answer?_eq_none hasks
  have hkind : (machine n).kind x.step = .expanding := (machine_layered.kind n x.step).trans hs.1
  have hopen {P : Prop} (h : x.stage.exhausted = true) : P := by
    rw [hx] at h
    cases h
  obtain ⟨r, ⟨ys, rest⟩, g'⟩ := d
  obtain ⟨hstate, hpending⟩ := h
  dsimp only at hstate hpending
  have hbehind {y : Cell Step} (hb : y.stage.buffer = []) (hy : y.step.rewound = x.step.rewound)
      (later : List Step) : pending later (y :: ys) rest = pending (x.step :: later) ys rest :=
    pending_of_empty hb hy later ys rest
  rcases r with _ | e | v <;> simp only [Cell.turn, hkind] at hturn
  -- nothing was drawn
  · cases hturn
    refine ⟨hs.cons rfl (fun _ => hend rfl) hstate, fun later => ?_⟩
    have hrest := hbehind (y := x.afterDraw none) hb rfl later
    dsimp only
    rw [pending_of_empty hb rfl, hpending, hrest]
    rfl
  -- an error was drawn
  · cases hturn
    refine ⟨hs.cons rfl hopen hstate, fun later => ?_⟩
    dsimp only
    rw [pending_of_empty hb rfl, hpending, hbehind hb rfl]
    rfl
  -- a value was drawn, and the turn is the last only if the step fails on it
  · obtain ⟨hresult, hgraph⟩ := machine_expand_eq hs.2.1 v g'
    have hstep := (machine_keeps n).expand x.step v g'
    split at hturn
    · rename_i e he
      cases hturn
      refine ⟨hs.cons hstep hopen hstate, fun later => ?_⟩
      have hfail := depthFirst_cons_error (hresult.symm.trans he) later
      rw [← hgraph] at hfail
      dsimp only
      rw [pending_of_empty hb rfl, hpending, hbehind (by exact hb) hstep]
      simp only [follow, Trace.andThen, Trace.emit, hfail]
    · cases hturn

/-- A turn after which another follows turns an input that is pending into its outputs. -/
theorem pending_of_again {s : List (Cell Step) × List Value} {g' : Graph}
    (hturn : x.turn (machine n) d = .again s g') :
    Orderly n s.1 s.2 ∧ ∀ later, pending later (x :: before) source g = pending later s.1 s.2 g' := by
  obtain ⟨hb, hx, -⟩ := Cell.of_answer?_eq_none hasks
  have hkind : (machine n).kind x.step = .expanding := (machine_layered.kind n x.step).trans hs.1
  obtain ⟨hstate, hpending⟩ := h
  obtain ⟨v, l, hr, hl, rfl, rfl⟩ := Cell.of_turn_again_expanding hkind hturn
  obtain ⟨hresult, hgraph⟩ := machine_expand_eq hs.2.1 v d.graph
  have hstep := (machine_keeps n).expand x.step v d.graph
  have hopen (h : x.stage.exhausted = true) : AtEnd d.state := by
    rw [hx] at h
    cases h
  refine ⟨hs.cons hstep hopen hstate, fun later => ?_⟩
  have hmore := depthFirst_cons_ok (hresult.symm.trans hl) later
  have hall : (x.step :: later).map rewound =
      (((machine n).expand x.step v d.graph).state :: later).map rewound := by
    rw [List.map_cons, List.map_cons, hstep]
  rw [← hgraph] at hmore
  dsimp only at hpending ⊢
  rw [pending_of_empty hb rfl, hpending, hr, pending, ← pending_of_rewound hall]
  simp only [follow, Trace.andThen, hmore]

end Turns

/-- A pull does the first part of what is pending, however many turns it takes. -/
theorem serves_of_pulled {n : Nat} {s : List (Cell Step) × List Value} {g : Graph}
    {d : Draw (List (Cell Step) × List Value)} (h : Pulled (machine n) s g d)
    (hs : Orderly n s.1 s.2) : Serves n s g d := by
  induction h with
  | seed source g =>
    refine ⟨trivial, fun later => ?_⟩
    cases source <;> rfl
  | answered h before source g => exact serves_of_answer hs h g
  | finished hasks hdraw hturn ih =>
    exact serves_of_finished hs hasks (ih hs.2.2.2) hdraw.atEnd hturn
  | again hasks _ hturn _ ih ih' =>
    obtain ⟨hs', hpending⟩ := pending_of_again hs hasks (ih hs.2.2.2) hturn
    obtain ⟨hstate, hpending'⟩ := ih' hs'
    exact ⟨hstate, fun later => (hpending later).trans (hpending' later)⟩

/-! ## Whole runs -/

/-- Draining a run does what is pending. -/
theorem pending_of_drains {n : Nat} {s : List (Cell Step) × List Value} {g g' : Graph} {l : Results}
    (h : Drains (machine n).cellProducer s g l g') (hs : Orderly n s.1 s.2) :
    pending [] s.1 s.2 g = (l, g') := by
  induction h with
  | @done s g hnone =>
    have hpull := pulled (machine_keeps_kind n) s g
    obtain ⟨hstate, hpending⟩ := serves_of_pulled hpull hs
    rw [hpending, hnone]
    have hend := hpull.atEnd hnone
    generalize (machine n).cellProducer s g = d at hstate hend
    obtain ⟨r, ⟨ys, rest⟩, g'⟩ := d
    rw [pending_of_atEnd hend hstate]
    rfl
  | @next s g g' r l hsome _ ih =>
    obtain ⟨hstate, hpending⟩ := serves_of_pulled (pulled (machine_keeps_kind n) s g) hs
    rw [hpending, hsome]
    cases r with
    | ok v => simp [follow, depthFirst, Trace.andThen, Trace.emit, ih hstate]
    | error e => simp [follow, Trace.andThen, Trace.emit, ih hstate]

theorem orderly_freshCells {n : Nat} {steps : List Step} (hn : heights steps ≤ n)
    (h : ∀ s ∈ steps, s.kind = .expanding) (seeds : List Value) :
    Orderly n (freshCells steps) seeds := by
  have hcells (xs : List Step) (hxs : ∀ s ∈ xs, s.kind = .expanding ∧ s.height ≤ n) :
      Orderly n (xs.map fun s => ⟨s, .fresh⟩) seeds := by
    induction xs with
    | nil => trivial
    | cons s xs ih =>
      obtain ⟨⟨hk, hheight⟩, hxs⟩ := List.forall_mem_cons.1 hxs
      exact ⟨hk, hheight, by rintro ⟨⟩, ih hxs⟩
  rw [freshCells, ← List.map_reverse]
  refine hcells _ fun s hs => ?_
  have hs := List.mem_reverse.1 hs
  exact ⟨h s hs, heights_le_iff.1 hn s hs⟩

theorem pending_freshCells (steps later : List Step) (seeds : List Value) :
    pending later (freshCells steps) seeds = Trace.each (depthFirst (steps ++ later)) seeds := by
  induction steps using List.reverseRecOn generalizing later with
  | nil => rfl
  | append_singleton steps s ih =>
    rw [freshCells_append, freshCells, List.map_nil, List.reverse_nil, List.nil_append,
      pending_of_empty rfl rfl, ih, List.append_assoc]
    rfl

/-- Side effects happen depth first.  To drain steps of which none is a barrier or a limit is to evaluate
recursively: each value is expanded by the first step and each output followed through the later steps,
all the way, before the next is touched.  Results, errors in their places among them, and the graph at
the end are the same. -/
theorem drains_iff_depthFirst (steps : List Step) (h : ∀ s ∈ steps, s.kind = .expanding)
    (seeds : List Value) (g g' : Graph) (l : Results) :
    Drains producer (steps, .start seeds steps.length) g l g' ↔
      Trace.each (depthFirst steps) seeds g = (l, g') := by
  have hstart := SameRun.refl (heights steps) le_rfl (.start seeds steps.length)
  have hcells := (ofCells_fresh steps seeds).symm
  rw [drains_iff (producer_agree _ _) hstart, drains_iff (machine (heights steps)).producer_agree hcells]
  have hdrained {l : Results} {g' : Graph}
      (h' : Drains (machine (heights steps)).cellProducer (freshCells steps, seeds) g l g') :
      Trace.each (depthFirst steps) seeds g = (l, g') := by
    rw [← pending_of_drains h' (orderly_freshCells le_rfl h seeds), pending_freshCells, List.append_nil]
  constructor
  · exact hdrained
  · intro heq
    obtain ⟨l', g'', h'⟩ := exists_drains (machine_keeps_kind (heights steps)) (freshCells steps) seeds g
    cases heq.symm.trans (hdrained h')
    exact h'

/-- The second vertex is added after the first has been listed. -/
theorem adds_and_lists_in_turn :
    Drains producer ([.addVertex "a", .vertices []], .start [.null, .null] 2) .empty
      [.ok (.vertex ⟨1⟩), .ok (.vertex ⟨1⟩), .ok (.vertex ⟨2⟩)]
      ((Graph.empty.addVertex "a").2.addVertex "a").2 :=
  (drains_iff_depthFirst [.addVertex "a", .vertices []] (by simp [kind, isBarrier])
    [.null, .null] _ _ _).2 (by decide)

end Step

end GraphTraversal
