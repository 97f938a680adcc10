import GraphTraversal.Proofs.Run.Draws

/-! # What a limit demands

A limit draws from the steps before it only while its quota is not met.  So to drain steps with a limit
behind them is to draw so many values from the steps alone; and whatever stands behind the limit, and
however often it is asked, the steps before it do not notice once the quota is met.
-/

namespace GraphTraversal

variable {S σ α : Type}

/-! ## Draws within a quota -/

def valuesDrawn : List (Option (Except Error Value)) → Nat
  | [] => 0
  | some (.ok _) :: l => valuesDrawn l + 1
  | _ :: l => valuesDrawn l

/-- Each draw comes when fewer than `quota` values have been drawn. -/
def Paced (quota : Nat) (l : List (Option (Except Error Value))) : Prop :=
  ∀ before r after, l = before ++ r :: after → valuesDrawn before < quota

theorem valuesDrawn_append (l l' : List (Option (Except Error Value))) :
    valuesDrawn (l ++ l') = valuesDrawn l + valuesDrawn l' := by
  induction l with
  | nil => exact (Nat.zero_add _).symm
  | cons r l ih =>
    rcases r with _ | _ | _ <;> simp only [List.cons_append, valuesDrawn, ih]
    exact Nat.add_right_comm _ _ _

theorem Paced.nil (quota : Nat) : Paced quota [] := fun before _ _ h => by
  cases before <;> cases h

/-- Draws go on within a quota as long as what is left of it allows. -/
theorem Paced.append {quota : Nat} {l l' : List (Option (Except Error Value))} (h : Paced quota l)
    (h' : Paced (quota - valuesDrawn l) l') : Paced quota (l ++ l') := by
  intro before r after heq
  obtain ⟨l₁, rfl, hl⟩ | ⟨l₁, rfl, hl⟩ := List.append_eq_append_iff.1 heq
  · have := h' l₁ r after hl
    rw [valuesDrawn_append]
    omega
  · cases l₁ with
    | nil =>
      have := h' [] r after hl.symm
      rw [List.append_nil] at this
      simp only [valuesDrawn] at this
      omega
    | cons r' l₁ =>
      cases hl
      exact h before _ l₁ rfl

theorem Paced.cons {quota : Nat} {r : Option (Except Error Value)}
    {l : List (Option (Except Error Value))} (hquota : 0 < quota)
    (h : Paced (quota - valuesDrawn [r]) l) : Paced quota (r :: l) := by
  refine Paced.append (l := [r]) (fun before r' after heq => ?_) h
  cases before with
  | nil => exact hquota
  | cons _ before => simp at heq

theorem Paced.eq_nil {l : List (Option (Except Error Value))} (h : Paced 0 l) : l = [] := by
  cases l with
  | nil => rfl
  | cons r l => exact absurd (h [] r l rfl) (Nat.not_lt_zero _)

theorem Paced.values_le {quota : Nat} {l : List (Option (Except Error Value))} (h : Paced quota l) :
    valuesDrawn l ≤ quota := by
  obtain rfl | ⟨l, r, rfl⟩ := l.eq_nil_or_concat
  · exact Nat.zero_le _
  · have := h l r [] (by simp)
    rw [List.concat_eq_append, valuesDrawn_append]
    rcases r with _ | _ | _ <;> simp only [valuesDrawn] <;> omega

/-! ## Behind a limit -/

/-- What the draws did to the cell of a limit: it counted the values. -/
structure Metered (x : Cell σ) (l : List (Option (Except Error Value))) (y : Cell σ) : Prop where
  step : y.step = x.step
  buffer : y.stage.buffer = x.stage.buffer
  emitted : y.stage.emitted = x.stage.emitted + valuesDrawn l

theorem Metered.refl (x : Cell σ) : Metered x [] x := ⟨rfl, rfl, rfl⟩

theorem Metered.trans {x y z : Cell σ} {l l' : List (Option (Except Error Value))}
    (h : Metered x l y) (h' : Metered y l' z) : Metered x (l ++ l') z where
  step := h'.step.trans h.step
  buffer := h'.buffer.trans h.buffer
  emitted := by rw [h'.emitted, h.emitted, Nat.add_assoc, ← valuesDrawn_append]

/-- A limit counts the value that it hands on. -/
theorem limitInto_metered (quota : Nat) (c : Consumer α) (a : α) (x : Cell σ) (g : Graph)
    (r : Except Error Value) :
    Metered x [some r] (limitInto quota c (a, x) g r).state.2 := by
  cases r with
  | error e => exact ⟨rfl, rfl, rfl⟩
  | ok v =>
    simp only [limitInto]
    split <;> exact ⟨rfl, rfl, rfl⟩

/-- Behind a limit no draw comes when the quota is met. -/
theorem Feeds.limited {p : Producer S} {quota : Nat} {c : Consumer α} {s s' : S} {b : α × Cell σ}
    {g : Graph} {q : Reply (α × Cell σ)} {l : List (Option (Except Error Value))}
    (h : Feeds p (limitInto quota c) s b g l s' q) (hb : b.2.stage.emitted < quota) :
    Metered b.2 l q.state.2 ∧ Paced (quota - b.2.stage.emitted) l := by
  induction h with
  | done => exact ⟨⟨rfl, rfl, rfl⟩, .cons (Nat.sub_pos_of_lt hb) (.nil _)⟩
  | @enough s b g r hsome henough =>
    exact ⟨limitInto_metered quota c b.1 b.2 _ r, .cons (Nat.sub_pos_of_lt hb) (.nil _)⟩
  | @more s s' b g r q q' l hsome hreply hmore _ ih =>
    subst hreply
    have hmetered := limitInto_metered quota c b.1 b.2 (p s g).graph r
    obtain ⟨hmetered', hpaced⟩ := ih (limitInto_open hb hmore)
    refine ⟨hmetered.trans hmetered', .cons (Nat.sub_pos_of_lt hb) ?_⟩
    rw [hmetered.emitted, ← Nat.sub_sub] at hpaced
    exact hpaced

/-! ## Further steps -/

section Runs

variable {m : Machine σ}

theorem Run.released_cells (m : Machine σ) (c : Consumer α) (o : Run σ (α × Cell σ)) :
    ∃ y, (o.released m c).cells = y :: o.cells ∧ (o.released m c).source = o.source := by
  simp only [Run.released]
  split
  · exact ⟨_, rfl, rfl⟩
  · split <;> exact ⟨_, rfl, rfl⟩

/-- A run changes the cell that it comes to, and leaves those before it or runs them in its turn. -/
theorem run_cons_cases (x : Cell σ) (before : List (Cell σ)) (source : List Value) (c : Consumer α)
    (a : α) (g : Graph) {o : Run σ α} (ho : run m (x :: before) source c a g = o) :
    ∃ y, o.cells = y :: before ∧ o.source = source ∨
      ∃ (β : Type) (c' : Consumer β) (b : β) (g' : Graph),
        o.cells = y :: (run m before source c' b g').cells ∧
          o.source = (run m before source c' b g').source := by
  subst ho
  rw [run_cons, runOffered]
  generalize offer c x.stage.buffer a g = w
  dsimp only
  split
  · exact ⟨_, .inl ⟨rfl, rfl⟩⟩
  · cases m.kind x.step with
    | expanding => exact ⟨_, .inr ⟨_, expandInto m c, _, _, rfl, rfl⟩⟩
    | limiting quota =>
      dsimp only
      split
      · exact ⟨_, .inl ⟨rfl, rfl⟩⟩
      · exact ⟨_, .inr ⟨_, limitInto quota c, _, _, rfl, rfl⟩⟩
    | gathering =>
      obtain ⟨y, hcells, hsource⟩ := (run m before source (gatherInto c)
        (w.1.state, ⟨x.step, { x.stage with buffer := w.2 }⟩) w.1.graph).released_cells m c
      exact ⟨y, .inr ⟨_, gatherInto c, _, _, hcells, hsource⟩⟩

/-- Cells in the middle of a run are left as they are or are run with some consumer. -/
theorem run_behind {mid : List (Cell σ)} {source : List Value} {P : List (Cell σ) → List Value → Prop}
    (stay : P mid source)
    (go : ∀ {β : Type} (c : Consumer β) b g,
      P (run m mid source c b g).cells (run m mid source c b g).source)
    (later : List (Cell σ)) {α : Type} (c : Consumer α) (a : α) (g : Graph) {o : Run σ α}
    (ho : run m (later ++ mid) source c a g = o) :
    ∃ later' mid', later'.length = later.length ∧ o.cells = later' ++ mid' ∧ P mid' o.source := by
  induction later generalizing α a g with
  | nil => exact ⟨[], _, rfl, rfl, ho ▸ go c a g⟩
  | cons x later ih =>
    obtain ⟨y, ⟨hcells, hsource⟩ | ⟨β, c', b, g', hcells, hsource⟩⟩ :=
      run_cons_cases x (later ++ mid) source c a g ho
    · exact ⟨y :: later, mid, rfl, hcells, hsource ▸ stay⟩
    · obtain ⟨later', mid', hlength, hcells', hP⟩ := ih c' b g' rfl
      exact ⟨y :: later', mid', congr_arg Nat.succ hlength, by rw [hcells, hcells']; rfl, hsource ▸ hP⟩

structure IsLimit (m : Machine σ) (quota : Nat) (x : Cell σ) : Prop where
  kind : m.kind x.step = .limiting quota
  buffer : x.stage.buffer = []

theorem IsLimit.metered {quota : Nat} {x y : Cell σ} {l : List (Option (Except Error Value))}
    (hx : IsLimit m quota x) (h : Metered x l y) : IsLimit m quota y :=
  ⟨by rw [h.step, hx.kind], h.buffer.trans hx.buffer⟩

/-- The cells at and before a limit are reached by draws from those before it, which keep to its
quota. -/
def WithinLimit (m : Machine σ) (quota : Nat) (x : Cell σ) (before : List (Cell σ)) (source : List Value)
    (mid : List (Cell σ)) (source' : List Value) : Prop :=
  ∃ y before' l, mid = y :: before' ∧ Metered x l y ∧ Paced (quota - x.stage.emitted) l ∧
    Drawn m.cellProducer (before, source) l (before', source')

variable {quota : Nat} {x : Cell σ}

theorem WithinLimit.refl (before : List (Cell σ)) (source : List Value) :
    WithinLimit m quota x before source (x :: before) source :=
  ⟨x, before, [], rfl, .refl x, .nil _, .nil _⟩

theorem run_withinLimit (hm : m.Keeps m.kind) (hx : IsLimit m quota x) (before : List (Cell σ))
    (source : List Value) (c : Consumer α) (a : α) (g : Graph) {o : Run σ α}
    (ho : run m (x :: before) source c a g = o) :
    WithinLimit m quota x before source o.cells o.source := by
  subst ho
  obtain ⟨s, ⟨held, gathered, emitted, exhausted⟩⟩ := x
  obtain ⟨hk, hb⟩ := hx
  dsimp only at hk hb
  subst hb
  cases exhausted with
  | true => exact .refl before source
  | false =>
    simp only [run_of_empty, hk]
    split
    · exact ⟨_, before, [], rfl, ⟨rfl, rfl, rfl⟩, .nil _, .nil _⟩
    · rename_i hopen
      obtain ⟨l, hl⟩ := run_feeds hm before source (limitInto quota c)
        (a, ⟨s, ⟨[], gathered, emitted, false⟩⟩) g
      obtain ⟨hmetered, hpaced⟩ := hl.limited (Nat.lt_of_not_le hopen)
      exact ⟨_, _, l, rfl, ⟨hmetered.step, hmetered.buffer, hmetered.emitted⟩, hpaced, hl.drawn⟩

/-- However often cells with a limit among them are drawn from, the draws from those before the limit
keep to its quota. -/
theorem Drawn.limited (hm : m.Keeps m.kind) (hx : IsLimit m quota x) {later before : List (Cell σ)}
    {source : List Value} {answers : List (Option (Except Error Value))}
    {s : List (Cell σ) × List Value}
    (h : Drawn m.cellProducer (later ++ x :: before, source) answers s) :
    ∃ later' mid, later'.length = later.length ∧ s.1 = later' ++ mid ∧
      WithinLimit m quota x before source mid s.2 := by
  generalize hs₀ : (later ++ x :: before, source) = s₀ at h
  induction h generalizing later x before source with
  | nil s =>
    subst hs₀
    exact ⟨later, x :: before, rfl, rfl, .refl before source⟩
  | @cons s s' answers g _ ih =>
    subst hs₀
    obtain ⟨later₁, mid, hlength, hcells, y, before₁, l, rfl, hmetered, hpaced, hdrawn⟩ :=
      run_behind (P := WithinLimit m quota x before source) (.refl before source)
        (fun c b g => run_withinLimit hm hx before source c b g rfl) later takeOne none g rfl
    obtain ⟨later', mid, hlength', hmid, z, before', l', rfl, hmetered', hpaced', hdrawn'⟩ :=
      ih (hx.metered hmetered) (Prod.ext hcells.symm rfl)
    refine ⟨later', _, hlength'.trans hlength, hmid, z, before', l ++ l', rfl,
      hmetered.trans hmetered', hpaced.append ?_, hdrawn.append hdrawn'⟩
    rw [hmetered.emitted, ← Nat.sub_sub] at hpaced'
    exact hpaced'

/-! ## A limit at the end -/

def Cell.afterDraw (x : Cell σ) : Option (Except Error Value) → Cell σ
  | none => { x with stage := { x.stage with exhausted := true } }
  | some (.ok _) => { x with stage := { x.stage with emitted := x.stage.emitted + 1 } }
  | some (.error _) => x

/-- A limit that is met brings nothing and draws nothing. -/
theorem cellProducer_met (hx : IsLimit m quota x) (hmet : quota ≤ x.stage.emitted)
    (before : List (Cell σ)) (source : List Value) (g : Graph) :
    (m.cellProducer (x :: before, source) g).result = none ∧
      (m.cellProducer (x :: before, source) g).graph = g := by
  obtain ⟨hk, hb⟩ := hx
  simp only [Machine.cellProducer, run_cons, runOffered, hb, offer, hk, hmet, if_true]
  split <;> exact ⟨rfl, rfl⟩

/-- A limit that is not met brings what one draw from the cells before it brings. -/
theorem cellProducer_limit (hm : m.Keeps m.kind) (hx : IsLimit m quota x)
    (hopen : x.stage.emitted < quota) (hfresh : x.stage.exhausted = false)
    (before : List (Cell σ)) (source : List Value) (g : Graph) {d : Draw (List (Cell σ) × List Value)}
    (hd : m.cellProducer (before, source) g = d) :
    m.cellProducer (x :: before, source) g =
      ⟨d.result, (x.afterDraw d.result :: d.state.1, d.state.2), d.graph⟩ := by
  obtain ⟨s, ⟨held, gathered, emitted, exhausted⟩⟩ := x
  obtain ⟨hk, hb⟩ := hx
  dsimp only at hk hb hopen hfresh
  subst hb hfresh
  have hrun := run_unroll hm before source (limitInto quota takeOne)
    (none, ⟨s, ⟨[], gathered, emitted, false⟩⟩) g hd
  simp only [Machine.cellProducer, run_of_empty, hk, Nat.not_le_of_lt hopen, hrun, if_false]
  obtain ⟨r, ⟨ys, rest⟩, g'⟩ := d
  rcases r with _ | _ | _ <;> rfl

theorem Drains.drawsValues (hm : m.Keeps m.kind) {n : Nat} (hx : IsLimit m quota x)
    (hn : quota - x.stage.emitted = n) (hfresh : x.stage.exhausted = false) {before : List (Cell σ)}
    {source : List Value} {g g' : Graph} {l : Results}
    (h : Drains m.cellProducer (x :: before, source) g l g') :
    DrawsValues m.cellProducer n (before, source) g l g' := by
  generalize hs : (x :: before, source) = s at h
  induction h generalizing n x before source with
  | @done s g hnone =>
    subst hs
    cases n with
    | zero =>
      rw [(cellProducer_met hx (Nat.le_of_sub_eq_zero hn) before source g).2]
      exact .enough
    | succ n =>
      rw [cellProducer_limit hm hx (by omega) hfresh before source g rfl] at hnone ⊢
      exact .done hnone
  | @next s g g' r l hsome _ ih =>
    subst hs
    cases n with
    | zero =>
      rw [(cellProducer_met hx (Nat.le_of_sub_eq_zero hn) before source g).1] at hsome
      cases hsome
    | succ n =>
      have hdraw := cellProducer_limit hm hx (by omega) hfresh before source g rfl
      rw [hdraw] at hsome ih
      dsimp only at hsome ih
      rw [hsome] at ih
      cases r with
      | ok v =>
        refine .value hsome (ih (x := x.afterDraw (some (.ok v))) ⟨hx.kind, hx.buffer⟩ ?_ hfresh rfl)
        change quota - (x.stage.emitted + 1) = n
        omega
      | error e => exact .error hsome (ih hx hn hfresh rfl)

theorem DrawsValues.drains (hm : m.Keeps m.kind) {n : Nat} (hx : IsLimit m quota x)
    (hn : quota - x.stage.emitted = n) (hfresh : x.stage.exhausted = false) {before : List (Cell σ)}
    {source : List Value} {g g' : Graph} {l : Results}
    (h : DrawsValues m.cellProducer n (before, source) g l g') :
    Drains m.cellProducer (x :: before, source) g l g' := by
  generalize hs : (before, source) = s at h
  induction h generalizing x before source with
  | @enough s g =>
    subst hs
    obtain ⟨hnone, hgraph⟩ := cellProducer_met hx (Nat.le_of_sub_eq_zero hn) before source g
    have hdone := Drains.done hnone
    rwa [hgraph] at hdone
  | @done n s g hnone =>
    subst hs
    have hdraw := cellProducer_limit hm hx (by omega) hfresh before source g rfl
    have hdone := Drains.done ((congr_arg (·.result) hdraw).trans hnone)
    rwa [hdraw] at hdone
  | @value n s g g' v l hsome _ ih =>
    subst hs
    have hdraw := cellProducer_limit hm hx (by omega) hfresh before source g rfl
    refine .next ((congr_arg (·.result) hdraw).trans hsome) ?_
    rw [hdraw, hsome]
    refine ih (x := x.afterDraw (some (.ok v))) ⟨hx.kind, hx.buffer⟩ ?_ hfresh rfl
    change quota - (x.stage.emitted + 1) = n
    omega
  | @error n s g g' e l hsome _ ih =>
    subst hs
    have hdraw := cellProducer_limit hm hx (by omega) hfresh before source g rfl
    refine .next ((congr_arg (·.result) hdraw).trans hsome) ?_
    rw [hdraw, hsome]
    exact ih hx hn hfresh rfl

/-! ## Steps -/

/-- The first `k` steps of a run with their stages and the source. -/
def upstream (k : Nat) (s : List σ × Flow) : List σ × Flow :=
  (s.1.take k, ⟨s.2.source, s.2.stages.take k⟩)

theorem upstream_ofCells (later before : List (Cell σ)) (source : List Value) :
    upstream before.length (ofCells (later ++ before, source)) = ofCells (before, source) := by
  simp [upstream, ofCells]

/-- How many values the limit behind the first `k` steps has let through. -/
def letThrough (k : Nat) (s : List σ × Flow) : Nat := (s.2.stages.getD k .fresh).emitted

theorem letThrough_ofCells (later before : List (Cell σ)) (x : Cell σ) (source : List Value) :
    letThrough before.length (ofCells (later ++ x :: before, source)) = x.stage.emitted := by
  simp [letThrough, ofCells]

theorem freshCells_append (steps : List σ) (s : σ) (later : List σ) :
    freshCells (steps ++ s :: later) = freshCells later ++ ⟨s, .fresh⟩ :: freshCells steps := by
  simp [freshCells]

theorem Drawn.length_eq (hm : m.Keeps m.kind) {s s' : List (Cell σ) × List Value}
    {answers : List (Option (Except Error Value))} (h : Drawn m.cellProducer s answers s') :
    s'.1.length = s.1.length := by
  induction h with
  | nil => rfl
  | @cons s s' answers g _ ih =>
    obtain ⟨-, hcells⟩ := run_keeps hm s.1 s.2 (c := takeOne) (I := fun _ => True)
      (fun _ _ _ _ => trivial) (a := none) g trivial
    have hlength := congr_arg List.length hcells
    rw [List.length_map, List.length_map] at hlength
    exact ih.trans hlength

/-- Draining steps with a limit behind them is drawing so many values from the steps alone. -/
theorem drains_limit_iff (hm : m.Keeps m.kind) (steps : List σ) {s : σ}
    (hs : m.kind s = .limiting quota) (seeds : List Value) (g g' : Graph) (l : Results) :
    Drains m.producer (steps ++ [s], .start seeds (steps ++ [s]).length) g l g' ↔
      DrawsValues m.producer quota (steps, .start seeds steps.length) g l g' := by
  rw [drains_iff m.producer_agree (ofCells_fresh (steps ++ [s]) seeds).symm,
    drawsValues_iff m.producer_agree (ofCells_fresh steps seeds).symm, freshCells_append]
  have hx : IsLimit m quota ⟨s, .fresh⟩ := ⟨hs, rfl⟩
  exact ⟨Drains.drawsValues hm hx rfl rfl, DrawsValues.drains hm hx rfl rfl⟩

/-- However often steps with a limit among them are drawn from, on whatever graphs: the steps before it
stand as some draws from them alone leave them, which brought the values that the limit let through, each
made before the quota was met; and once it is met, they stand still. -/
theorem drawn_limit (hm : m.Keeps m.kind) (steps : List σ) {s : σ} (hs : m.kind s = .limiting quota)
    (later : List σ) (seeds : List Value) {answers : List (Option (Except Error Value))}
    {s₁ : List σ × Flow}
    (h : Drawn m.producer (steps ++ s :: later, .start seeds (steps ++ s :: later).length) answers s₁) :
    (∃ l, Drawn m.producer (steps, .start seeds steps.length) l (upstream steps.length s₁) ∧
      Paced quota l ∧ valuesDrawn l = letThrough steps.length s₁) ∧
        letThrough steps.length s₁ ≤ quota ∧
          (letThrough steps.length s₁ = quota → ∀ answers' s₂, Drawn m.producer s₁ answers' s₂ →
            upstream steps.length s₂ = upstream steps.length s₁) := by
  obtain ⟨⟨ys, source⟩, rfl, hdrawn⟩ :=
    h.agree m.producer_agree (ofCells_fresh (steps ++ s :: later) seeds).symm
  rw [freshCells_append] at hdrawn
  have hx : IsLimit m quota ⟨s, .fresh⟩ := ⟨hs, rfl⟩
  obtain ⟨later₁, mid, -, hys, x, before, l, rfl, hmetered, hpaced, hbefore⟩ := hdrawn.limited hm hx
  have hlength : before.length = steps.length := by
    rw [hbefore.length_eq hm, freshCells, List.length_reverse, List.length_map]
  dsimp only at hys hbefore
  subst hys
  have hpart (later : List (Cell σ)) (x : Cell σ) (source : List Value) :
      upstream steps.length (ofCells (later ++ x :: before, source)) = ofCells (before, source) := by
    rw [← hlength, List.append_cons, upstream_ofCells]
  have hcount : x.stage.emitted = valuesDrawn l := by
    rw [hmetered.emitted, Stage.fresh, Nat.zero_add]
  have hthrough : letThrough steps.length (ofCells (later₁ ++ x :: before, source)) = valuesDrawn l := by
    rw [← hlength, letThrough_ofCells, hcount]
  obtain ⟨_, rfl, halone⟩ := hbefore.agree m.producer_agree.symm (ofCells_fresh steps seeds).symm
  rw [hthrough]
  refine ⟨⟨l, by rwa [hpart], hpaced, rfl⟩, hpaced.values_le, fun hmet answers' s₂ h₂ => ?_⟩
  -- from here on no draw keeps to what is left of the quota
  obtain ⟨⟨zs, source₂⟩, rfl, hdrawn₂⟩ := h₂.agree m.producer_agree rfl
  obtain ⟨later₂, mid, -, hzs, y, before₂, l₂, rfl, -, hpaced₂, hbefore₂⟩ :=
    hdrawn₂.limited hm (hx.metered hmetered)
  rw [hcount, hmet, Nat.sub_self] at hpaced₂
  obtain rfl := hpaced₂.eq_nil
  dsimp only at hzs hbefore₂
  subst hzs
  cases hbefore₂
  rw [hpart, hpart]

end Runs

end GraphTraversal
