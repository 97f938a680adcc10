import GraphTraversal.Proofs.Run.Agreement
import GraphTraversal.Proofs.Run.Contracts
import GraphTraversal.Proofs.Run.Persistence

/-! # Taking a run up again

A run that its consumer has stopped leaves in its cells all that it did not hand over.  So a consumer may
stop a run and take it up again: the run that goes on leaves what the one that stopped leaves when it is
taken up.  In the end every run is one pull after another.
-/

namespace GraphTraversal

variable {σ α : Type}

section Consumers

/-- `c'` answers as `c` does on the states in `I`, and where `c` stops it goes on as `resume` says. -/
structure Resumes (I : α → Prop) (c c' : Consumer α) (resume : α → Graph → Reply α) : Prop where
  more : ∀ {a g r}, I a → (c a g r).more = true → c' a g r = c a g r ∧ I (c a g r).state
  stopped : ∀ {a g r}, I a → (c a g r).more = false →
    c' a g r = resume (c a g r).state (c a g r).graph

def offerOn (c : Consumer α) (l : List Value) (q : Reply α) : Reply α × List Value :=
  if q.more then offer c l q.state q.graph else (q, l)

def runOn (m : Machine σ) (xs : List (Cell σ)) (source : List Value) (c : Consumer α) (q : Reply α) :
    Run σ α :=
  if q.more then run m xs source c q.state q.graph else ⟨xs, source, q⟩

theorem runOn_of_more {m : Machine σ} {xs : List (Cell σ)} {source : List Value} {c : Consumer α}
    {q : Reply α} (h : q.more = true) :
    runOn m xs source c q = run m xs source c q.state q.graph :=
  if_pos h

theorem runOn_of_enough {m : Machine σ} {xs : List (Cell σ)} {source : List Value} {c : Consumer α}
    {q : Reply α} (h : q.more = false) : runOn m xs source c q = ⟨xs, source, q⟩ :=
  if_neg (by simp [h])

def resumeOffer (c' : Consumer α) (resume : α → Graph → Reply α) (o : Reply α × List Value) :
    Reply α × List Value :=
  if o.1.more then o else offerOn c' o.2 (resume o.1.state o.1.graph)

def resumeRun (m : Machine σ) (c' : Consumer α) (resume : α → Graph → Reply α) (o : Run σ α) :
    Run σ α :=
  if o.reply.more then o else runOn m o.cells o.source c' (resume o.reply.state o.reply.graph)

/-- Goes on behind a step that expands: what the step still holds goes first. -/
def resumeExpand (c' : Consumer α) (resume : α → Graph → Reply α) :
    α × Cell σ → Graph → Reply (α × Cell σ) :=
  fun (a, x) g =>
    let o := offerOn c' x.stage.buffer (resume a g)
    ⟨(o.1.state, { x with stage := { x.stage with buffer := o.2 } }), o.1.graph, o.1.more⟩

def resumeLimit (quota : Nat) (resume : α → Graph → Reply α) :
    α × Cell σ → Graph → Reply (α × Cell σ) :=
  fun (a, x) g =>
    if x.stage.exhausted then ⟨(a, x), g, false⟩
    else
      let q := resume a g
      if q.more && quota ≤ x.stage.emitted then
        ⟨(q.state, { x with stage := { x.stage with exhausted := true } }), q.graph, false⟩
      else ⟨(q.state, x), q.graph, q.more⟩

/-- Goes on behind a barrier, which hands on errors only. -/
def resumeGather (resume : α → Graph → Reply α) : α × Cell σ → Graph → Reply (α × Cell σ) :=
  fun (a, x) g =>
    let q := resume a g
    ⟨(q.state, x), q.graph, q.more⟩

variable {I : α → Prop} {c c' : Consumer α} {resume : α → Graph → Reply α}

theorem offerOn_nil (c : Consumer α) (q : Reply α) : offerOn c [] q = (q, []) := by
  obtain ⟨a, g, more⟩ := q
  cases more <;> rfl

theorem offer_rest_of_more {l : List Value} {a : α} {g : Graph}
    (h : (offer c l a g).1.more = true) : (offer c l a g).2 = [] := by
  induction l generalizing a g with
  | nil => rfl
  | cons v l ih =>
    rw [offer] at h ⊢
    split at h
    · rename_i hmore
      rw [if_pos hmore]
      exact ih h
    · rename_i hmore
      exact absurd h hmore

theorem offer_resumes (h : Resumes I c c' resume) (l : List Value) {a : α} (ha : I a) (g : Graph) :
    offer c' l a g = resumeOffer c' resume (offer c l a g) ∧
      ((offer c l a g).1.more = true → I (offer c l a g).1.state) := by
  induction l generalizing a g with
  | nil => exact ⟨rfl, fun _ => ha⟩
  | cons v l ih =>
    cases hmore : (c a g (.ok v)).more with
    | true =>
      obtain ⟨heq, ha'⟩ := h.more ha hmore
      simp only [offer, heq, hmore, if_true]
      exact ih ha' _
    | false =>
      have heq := h.stopped ha hmore
      simp only [offer, heq, hmore, resumeOffer, Bool.false_eq_true, if_false]
      exact ⟨rfl, fun h => h.elim⟩

theorem expandInto_resumes (m : Machine σ) (h : Resumes I c c' resume) :
    Resumes (fun b : α × Cell σ => I b.1 ∧ b.2.stage.buffer = []) (expandInto m c) (expandInto m c')
      (resumeExpand c' resume) where
  more := by
    rintro ⟨a, x⟩ g r ⟨ha, hb⟩ hmore
    cases r with
    | error e =>
      obtain ⟨heq, ha'⟩ := h.more ha hmore
      exact ⟨by simp only [expandInto, heq], ha', hb⟩
    | ok v =>
      simp only [expandInto] at hmore ⊢
      cases hr : (m.expand x.step v g).result with
      | error e =>
        simp only [hr] at hmore ⊢
        obtain ⟨heq, ha'⟩ := h.more ha hmore
        exact ⟨by rw [heq], ha', hb⟩
      | ok l =>
        simp only [hr] at hmore ⊢
        obtain ⟨heq, ha'⟩ := offer_resumes h l ha (m.expand x.step v g).graph
        rw [heq, resumeOffer, if_pos hmore]
        exact ⟨rfl, ha' hmore, offer_rest_of_more hmore⟩
  stopped := by
    rintro ⟨a, x⟩ g r ⟨ha, hb⟩ hmore
    have hnil (a : α) (g : Graph) (x : Cell σ) (hb : x.stage.buffer = []) :
        resumeExpand c' resume (a, x) g =
          ⟨((resume a g).state, x), (resume a g).graph, (resume a g).more⟩ := by
      have hx : { x with stage := { x.stage with buffer := [] } } = x := by rw [← hb]
      simp only [resumeExpand, hb, offerOn_nil, hx]
    cases r with
    | error e =>
      have heq := h.stopped ha hmore
      simp only [expandInto, heq, hnil _ _ x hb]
    | ok v =>
      simp only [expandInto] at hmore ⊢
      cases hr : (m.expand x.step v g).result with
      | error e =>
        simp only [hr] at hmore ⊢
        rw [h.stopped ha hmore, hnil _ _ _ (by exact hb)]
      | ok l =>
        simp only [hr] at hmore ⊢
        rw [(offer_resumes h l ha (m.expand x.step v g).graph).1]
        simp only [resumeExpand, resumeOffer, hmore, Bool.false_eq_true, if_false]

/-- A limit that wants more has not met its quota. -/
theorem limitInto_open {quota : Nat} {c : Consumer α} {a : α} {x : Cell σ} {g : Graph}
    {r : Except Error Value} (hx : x.stage.emitted < quota)
    (h : (limitInto quota c (a, x) g r).more = true) :
    (limitInto quota c (a, x) g r).state.2.stage.emitted < quota := by
  cases r with
  | error e => exact hx
  | ok v =>
    simp only [limitInto] at h ⊢
    split at h
    · cases h
    · rename_i hopen
      rw [if_neg hopen]
      have hopen' : (c a g (.ok v)).more = true → x.stage.emitted + 1 < quota := by
        simpa using hopen
      exact hopen' h

theorem limitInto_resumes (quota : Nat) (h : Resumes I c c' resume) :
    Resumes (fun b : α × Cell σ => I b.1 ∧ b.2.stage.emitted < quota ∧ b.2.stage.exhausted = false)
      (limitInto quota c) (limitInto quota c') (resumeLimit quota resume) where
  more := by
    rintro ⟨a, x⟩ g r ⟨ha, hq, hx⟩ hmore
    dsimp only at ha hq hx
    cases r with
    | error e =>
      obtain ⟨heq, ha'⟩ := h.more ha hmore
      exact ⟨by simp only [limitInto, heq], ha', hq, hx⟩
    | ok v =>
      have hemitted := limitInto_open hq hmore
      simp only [limitInto] at hmore hemitted ⊢
      split at hmore
      · cases hmore
      · rename_i hopen
        obtain ⟨heq, ha'⟩ := h.more ha hmore
        simp only [heq, if_neg hopen] at hemitted ⊢
        exact ⟨trivial, ha', hemitted, hx⟩
  stopped := by
    rintro ⟨a, x⟩ g r ⟨ha, hq, hx⟩ hmore
    dsimp only at ha hq hx
    cases r with
    | error e =>
      have heq := h.stopped ha hmore
      simp only [limitInto, heq, resumeLimit, hx, Nat.not_le_of_lt hq, decide_false, Bool.and_false,
        Bool.false_eq_true, if_false]
    | ok v =>
      cases hreply : (c a g (.ok v)).more with
      | true =>
        obtain ⟨heq, -⟩ := h.more ha hreply
        have hmet : quota ≤ x.stage.emitted + 1 := by
          by_contra hopen
          simp [limitInto, hreply, hopen] at hmore
        simp [limitInto, heq, hreply, hmet, resumeLimit]
      | false =>
        have heq := h.stopped ha hreply
        simp only [limitInto, heq, hreply, resumeLimit, hx, Bool.false_and, Bool.false_eq_true, if_false]

theorem gatherInto_resumes (h : Resumes I c c' resume) :
    Resumes (fun b : α × Cell σ => I b.1) (gatherInto c) (gatherInto c')
      (resumeGather resume) where
  more := by
    rintro ⟨a, x⟩ g r ha hmore
    cases r with
    | error e =>
      obtain ⟨heq, ha'⟩ := h.more ha hmore
      exact ⟨by simp only [gatherInto, heq], ha'⟩
    | ok v => exact ⟨rfl, ha⟩
  stopped := by
    rintro ⟨a, x⟩ g r ha hmore
    cases r with
    | error e =>
      have heq := h.stopped ha hmore
      simp only [gatherInto, heq, resumeGather]
    | ok v => cases hmore

/-! ## What a run leaves of the cell it went through -/

/-- A cell that is still of one kind and not at its end. -/
def Unspent (m : Machine σ) (k : Kind) (x : Cell σ) : Prop :=
  m.kind x.step = k ∧ x.stage.exhausted = false

theorem expandInto_unspent {m : Machine σ} (hm : m.Keeps m.kind) (c : Consumer α) (k : Kind) :
    Consumer.Keeps (expandInto m c) (fun b => Unspent m k b.2) := by
  rintro ⟨a, x⟩ g r ⟨hk, hx⟩
  cases r with
  | error e => exact ⟨hk, hx⟩
  | ok v =>
    simp only [expandInto]
    cases (m.expand x.step v g).result with
    | error e => exact ⟨(hm.expand _ _ _).trans hk, hx⟩
    | ok l => exact ⟨(hm.expand _ _ _).trans hk, hx⟩

theorem limitInto_same (quota : Nat) (c : Consumer α) (s : σ) (l : List Value) :
    Consumer.Keeps (limitInto quota c) (fun b => b.2.step = s ∧ b.2.stage.buffer = l) := by
  rintro ⟨a, x⟩ g r h
  cases r with
  | error e => exact h
  | ok v =>
    simp only [limitInto]
    split <;> exact h

theorem gatherInto_same (c : Consumer α) (s : σ) (l : List Value) :
    Consumer.Keeps (gatherInto c)
      (fun b => b.2.step = s ∧ b.2.stage.buffer = l ∧ b.2.stage.exhausted = false) := by
  rintro ⟨a, x⟩ g r h
  cases r with
  | error e => exact h
  | ok v => exact h

end Consumers

/-! ## Runs -/

section Runs

variable {m : Machine σ}

def Run.expanded (o : Run σ (α × Cell σ)) : Run σ α :=
  let x := o.reply.state.2
  ⟨{ x with stage := { x.stage with exhausted := o.reply.more } } :: o.cells, o.source,
    ⟨o.reply.state.1, o.reply.graph, o.reply.more⟩⟩

def Run.limited (o : Run σ (α × Cell σ)) : Run σ α :=
  let x := o.reply.state.2
  let ended := o.reply.more || x.stage.exhausted
  ⟨{ x with stage := { x.stage with exhausted := ended } } :: o.cells, o.source,
    ⟨o.reply.state.1, o.reply.graph, ended⟩⟩

/-- What a run through a barrier leaves: at the end of the inputs the barrier releases what it makes of
them. -/
def Run.released (m : Machine σ) (c : Consumer α) (o : Run σ (α × Cell σ)) : Run σ α :=
  let x := o.reply.state.2
  if !o.reply.more then ⟨x :: o.cells, o.source, ⟨o.reply.state.1, o.reply.graph, false⟩⟩
  else
    let released := m.release x.step x.stage.gathered.reverse o.reply.graph
    let stage := { x.stage with gathered := [], exhausted := true }
    match released.result with
    | .error e =>
      ⟨⟨released.state, stage⟩ :: o.cells, o.source,
        c o.reply.state.1 released.graph (.error e)⟩
    | .ok l =>
      let p := offer c l o.reply.state.1 released.graph
      ⟨⟨released.state, { stage with buffer := p.2 }⟩ :: o.cells, o.source, p.1⟩

def runOffered (m : Machine σ) (x : Cell σ) (before : List (Cell σ)) (source : List Value)
    (c : Consumer α) (o : Reply α × List Value) : Run σ α :=
  let x := { x with stage := { x.stage with buffer := o.2 } }
  if !o.1.more || x.stage.exhausted then ⟨x :: before, source, o.1⟩
  else
    match m.kind x.step with
    | .expanding => (run m before source (expandInto m c) (o.1.state, x) o.1.graph).expanded
    | .limiting quota =>
      if quota ≤ x.stage.emitted then
        ⟨{ x with stage := { x.stage with exhausted := true } } :: before, source, o.1⟩
      else (run m before source (limitInto quota c) (o.1.state, x) o.1.graph).limited
    | .gathering => (run m before source (gatherInto c) (o.1.state, x) o.1.graph).released m c

theorem run_cons (x : Cell σ) (before : List (Cell σ)) (source : List Value) (c : Consumer α) (a : α)
    (g : Graph) : run m (x :: before) source c a g =
      runOffered m x before source c (offer c x.stage.buffer a g) :=
  rfl

/-- A cell that holds nothing and is not at its end is served from the cells before it. -/
theorem run_of_empty {x : Cell σ} (hb : x.stage.buffer = []) (hx : x.stage.exhausted = false)
    (before : List (Cell σ)) (source : List Value) (c : Consumer α) (a : α) (g : Graph) :
    run m (x :: before) source c a g =
      match m.kind x.step with
      | .expanding => (run m before source (expandInto m c) (a, x) g).expanded
      | .limiting quota =>
        if quota ≤ x.stage.emitted then
          ⟨{ x with stage := { x.stage with exhausted := true } } :: before, source, ⟨a, g, true⟩⟩
        else (run m before source (limitInto quota c) (a, x) g).limited
      | .gathering => (run m before source (gatherInto c) (a, x) g).released m c := by
  obtain ⟨s, ⟨held, gathered, emitted, exhausted⟩⟩ := x
  dsimp only at hb hx
  subst hb hx
  rfl

theorem runOn_cons (x : Cell σ) (before : List (Cell σ)) (source : List Value) (c : Consumer α)
    (q : Reply α) : runOn m (x :: before) source c q =
      runOffered m x before source c (offerOn c x.stage.buffer q) := by
  obtain ⟨a, g, more⟩ := q
  cases more with
  | true => rfl
  | false => rfl

theorem run_nil (source : List Value) (c : Consumer α) (a : α) (g : Graph) :
    run m [] source c a g = ⟨[], (offer c source a g).2, (offer c source a g).1⟩ :=
  rfl

theorem runOn_nil (source : List Value) (c : Consumer α) (q : Reply α) :
    runOn m [] source c q = ⟨[], (offerOn c source q).2, (offerOn c source q).1⟩ := by
  obtain ⟨a, g, more⟩ := q
  cases more with
  | true => rfl
  | false => rfl

section Resuming

variable {I : α → Prop} {c c' : Consumer α} {resume : α → Graph → Reply α}

theorem expanded_resumes {o : Run σ (α × Cell σ)} (hx : Unspent m .expanding o.reply.state.2) :
    (resumeRun m (expandInto m c') (resumeExpand c' resume) o).expanded =
      resumeRun m c' resume o.expanded := by
  obtain ⟨ys, rest, ⟨⟨b, x⟩, g, more⟩⟩ := o
  obtain ⟨hk, hx⟩ := hx
  dsimp only at hk hx
  cases more with
  | true => rfl
  | false =>
    change (runOn m ys rest (expandInto m c') (resumeExpand c' resume (b, x) g)).expanded =
      runOn m (_ :: ys) rest c' (resume b g)
    rw [runOn_cons, resumeExpand]
    generalize offerOn c' x.stage.buffer (resume b g) = w
    obtain ⟨⟨b', g', more⟩, l⟩ := w
    cases more with
    | false => rfl
    | true => simp [runOn, runOffered, hk, hx]

theorem limited_resumes {quota : Nat} {o : Run σ (α × Cell σ)}
    (hk : m.kind o.reply.state.2.step = .limiting quota) (hb : o.reply.state.2.stage.buffer = []) :
    (resumeRun m (limitInto quota c') (resumeLimit quota resume) o).limited =
      resumeRun m c' resume o.limited := by
  obtain ⟨ys, rest, ⟨⟨b, ⟨s, ⟨held, gathered, emitted, exhausted⟩⟩⟩, g, more⟩⟩ := o
  dsimp only at hk hb
  subst hb
  cases more with
  | true => rfl
  | false =>
    cases exhausted with
    | true => rfl
    | false =>
      change (runOn m ys rest (limitInto quota c') (resumeLimit quota resume (b, _) g)).limited =
        runOn m (⟨s, ⟨[], gathered, emitted, false⟩⟩ :: ys) rest c' (resume b g)
      rw [runOn_cons, offerOn_nil, resumeLimit]
      generalize resume b g = q
      obtain ⟨b', g', more⟩ := q
      cases more with
      | false => rfl
      | true => by_cases hmet : quota ≤ emitted <;> simp [runOn, runOffered, Run.limited, hk, hmet]

theorem released_resumes (h : Resumes I c c' resume) {o : Run σ (α × Cell σ)}
    (ha : o.reply.more = true → I o.reply.state.1)
    (hx : Unspent m .gathering o.reply.state.2) (hb : o.reply.state.2.stage.buffer = []) :
    (resumeRun m (gatherInto c') (resumeGather resume) o).released m c' =
      resumeRun m c' resume (o.released m c) := by
  obtain ⟨ys, rest, ⟨⟨b, ⟨s, ⟨held, gathered, emitted, exhausted⟩⟩⟩, g, more⟩⟩ := o
  obtain ⟨hk, hx⟩ := hx
  dsimp only at hk hx hb ha
  subst hb hx
  cases more with
  | false =>
    change (runOn m ys rest (gatherInto c') (resumeGather resume (b, _) g)).released m c' =
      runOn m (⟨s, ⟨[], gathered, emitted, false⟩⟩ :: ys) rest c' (resume b g)
    rw [runOn_cons, offerOn_nil, resumeGather]
    generalize resume b g = q
    obtain ⟨b', g', more⟩ := q
    cases more with
    | false => rfl
    | true => simp [runOn, runOffered, hk]
  | true =>
    have ha := ha rfl
    simp only [resumeRun, Run.released, if_true, Bool.not_true, Bool.false_eq_true, if_false]
    generalize m.release s gathered.reverse g = released
    obtain ⟨r, s', g'⟩ := released
    -- a barrier that has released its values is at its end, so only they can be left
    have hend (l : List Value) (q : Reply α) :
        runOn m (⟨s', ⟨l, [], emitted, true⟩⟩ :: ys) rest c' q =
          ⟨⟨s', ⟨(offerOn c' l q).2, [], emitted, true⟩⟩ :: ys, rest, (offerOn c' l q).1⟩ := by
      simp [runOn_cons, runOffered]
    cases r with
    | error e =>
      dsimp only
      split
      · rename_i hmore
        rw [(h.more ha hmore).1]
      · rename_i hmore
        rw [h.stopped ha (by simpa using hmore), hend, offerOn_nil]
    | ok l =>
      dsimp only
      rw [(offer_resumes h l ha _).1, resumeOffer]
      split
      · rfl
      · rw [hend]

theorem Resumes.steers (h : Resumes I c c' resume) : c.Steers I fun _ => True :=
  fun _ _ _ ha => ⟨fun hmore => (h.more ha hmore).2, fun _ => trivial⟩

end Resuming

/-- A run is the run of a consumer that stops, taken up again. -/
theorem run_resumes (hm : m.Keeps m.kind) (xs : List (Cell σ)) (source : List Value) {α : Type}
    {I : α → Prop} {c c' : Consumer α} {resume : α → Graph → Reply α} (h : Resumes I c c' resume)
    {a : α} (ha : I a) (g : Graph) :
    run m xs source c' a g = resumeRun m c' resume (run m xs source c a g) := by
  induction xs generalizing α a g with
  | nil =>
    rw [run_nil, run_nil, (offer_resumes h source ha g).1, resumeOffer, resumeRun, runOn_nil]
    split <;> rfl
  | cons x before ih =>
    obtain ⟨hoffer, ha'⟩ := offer_resumes h x.stage.buffer ha g
    rw [run_cons, run_cons, hoffer]
    generalize hw : offer c x.stage.buffer a g = w at ha'
    obtain ⟨⟨b, g', more⟩, l⟩ := w
    cases more with
    | false =>
      change _ = runOn m (_ :: before) source c' (resume b g')
      rw [runOn_cons]
      rfl
    | true =>
      obtain rfl : l = [] := by simpa [hw] using offer_rest_of_more (congr_arg (·.1.more) hw)
      have hb : I b := ha' rfl
      obtain ⟨s, ⟨held, gathered, emitted, exhausted⟩⟩ := x
      cases exhausted with
      | true => rfl
      | false =>
        simp only [resumeOffer, runOffered, if_true, Bool.not_true, Bool.or_self, Bool.false_eq_true,
          if_false]
        cases hk : m.kind s with
        | expanding =>
          dsimp only
          rw [ih (expandInto_resumes m h) ⟨hb, rfl⟩]
          refine expanded_resumes (run_keeps hm before source (expandInto_unspent hm c .expanding)
            g' ?_).1
          exact ⟨hk, rfl⟩
        | limiting quota =>
          dsimp only
          split
          · rfl
          · rename_i hopen
            rw [ih (limitInto_resumes quota h) ⟨hb, Nat.lt_of_not_le hopen, rfl⟩]
            obtain ⟨⟨hs, hbuffer⟩, -⟩ := run_keeps hm before source (limitInto_same quota c s [])
              (a := (b, ⟨s, ⟨[], gathered, emitted, false⟩⟩)) g' ⟨rfl, rfl⟩
            exact limited_resumes (by rw [hs, hk]) hbuffer
        | gathering =>
          dsimp only
          rw [ih (gatherInto_resumes h) hb]
          obtain ⟨⟨hs, hbuffer, hx⟩, -⟩ := run_keeps hm before source (gatherInto_same c s [])
            (a := (b, ⟨s, ⟨[], gathered, emitted, false⟩⟩)) g' ⟨rfl, rfl, rfl⟩
          have hsteers := run_steers m before source (gatherInto_steers h.steers)
            (a := (b, ⟨s, ⟨[], gathered, emitted, false⟩⟩)) g' hb
          exact released_resumes h hsteers.1 ⟨by rw [hs, hk], hx⟩ hbuffer

end Runs

end GraphTraversal
