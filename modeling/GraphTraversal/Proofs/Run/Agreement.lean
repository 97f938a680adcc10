import Mathlib.Data.List.Forall2
import GraphTraversal.Step.Flow

/-! # Machines that agree

Two machines whose steps answer alike run alike.  Answers are compared up to a relation on errors, so
that the wording of an error may differ, and the steps that come back must be related again.  The
relation on graphs is equality on the graphs of a class, which every step has to stay in.
-/

namespace GraphTraversal

variable {σ σ' α α' β : Type}

/-! ## Answers -/

/-- The same value, or errors that `E` relates. -/
inductive EqUpTo (E : Error → Error → Prop) {α : Type} : Except Error α → Except Error α → Prop where
  | ok (a : α) : EqUpTo E (.ok a) (.ok a)
  | error {e e' : Error} (h : E e e') : EqUpTo E (.error e) (.error e')

variable {E : Error → Error → Prop} {G : Graph → Prop}

theorem EqUpTo.map {r r' : Except Error α} (h : EqUpTo E r r') (f : α → β) :
    EqUpTo E (r.map f) (r'.map f) := by
  cases h with
  | ok a => exact .ok (f a)
  | error h => exact .error h

theorem EqUpTo.self {r : Except Error α} (h : ∀ e, r = .error e → E e e) : EqUpTo E r r := by
  cases r with
  | ok a => exact .ok a
  | error e => exact .error (h e rfl)

theorem EqUpTo.refl [Std.Refl E] (r : Except Error α) : EqUpTo E r r := .self fun e _ => Std.Refl.refl e

theorem EqUpTo.bind {r r' : Except Error α} (h : EqUpTo E r r') {f : α → Except Error β}
    (hf : ∀ a, r = .ok a → EqUpTo E (f a) (f a)) : EqUpTo E (r.bind f) (r'.bind f) := by
  cases h with
  | ok a => exact hf a rfl
  | error h => exact .error h

theorem eqUpTo_iff_eq {r r' : Except Error α} : EqUpTo Eq r r' ↔ r = r' := by
  constructor
  · rintro (_ | rfl) <;> rfl
  · rintro rfl
    exact .refl r

theorem eq_of_rel_eqUpTo {r r' : Option (Except Error α)} (h : Option.Rel (EqUpTo Eq) r r') :
    r = r' := by
  cases h with
  | some h => rw [eqUpTo_iff_eq.1 h]
  | none => rfl

theorem EqUpTo.trans {r r' r'' : Except Error α} (h : EqUpTo Eq r r') (h' : EqUpTo E r' r'') :
    EqUpTo E r r'' :=
  eqUpTo_iff_eq.1 h ▸ h'

/-- Results that agree, states that `S` relates, and the same graph, of the class `G`. -/
structure Outcome.Agree (E : Error → Error → Prop) (S : σ → σ' → Prop) (G : Graph → Prop)
    (o : Outcome σ α) (o' : Outcome σ' α) : Prop where
  result : EqUpTo E o.result o'.result
  state : S o.state o'.state
  graph : o.graph = o'.graph
  kept : G o.graph

theorem Outcome.Agree.cases {S : σ → σ' → Prop} {o : Outcome σ α} {o' : Outcome σ' α}
    (h : Outcome.Agree E S G o o') :
    (∃ a s s' g, o = ⟨.ok a, s, g⟩ ∧ o' = ⟨.ok a, s', g⟩ ∧ S s s' ∧ G g) ∨
      ∃ e e' s s' g, o = ⟨.error e, s, g⟩ ∧ o' = ⟨.error e', s', g⟩ ∧ E e e' ∧ S s s' ∧ G g := by
  rcases o with ⟨r, s, g⟩
  rcases o' with ⟨r', s', _⟩
  rcases h with ⟨hresult, hstate, rfl, hkept⟩
  cases hresult with
  | ok a => exact .inl ⟨a, s, s', g, rfl, rfl, hstate, hkept⟩
  | error he => exact .inr ⟨_, _, s, s', g, rfl, rfl, he, hstate, hkept⟩

/-- Steps that `S` relates are of one kind and answer alike, and are related again after that. -/
structure Machine.Agree (m : Machine σ) (m' : Machine σ') (E : Error → Error → Prop)
    (S : σ → σ' → Prop) (G : Graph → Prop) : Prop where
  kind : ∀ {s s'}, S s s' → m.kind s = m'.kind s'
  expand : ∀ {s s'}, S s s' → ∀ v {g}, G g →
    Outcome.Agree E S G (m.expand s v g) (m'.expand s' v g)
  release : ∀ {s s'}, S s s' → m.kind s = .gathering → ∀ l {g}, G g →
    Outcome.Agree E S G (m.release s l g) (m'.release s' l g)

structure Reply.Agree (Q : α → α' → Prop) (G : Graph → Prop) (r : Reply α) (r' : Reply α') :
    Prop where
  state : Q r.state r'.state
  graph : r.graph = r'.graph
  kept : G r.graph
  more : r.more = r'.more

structure Consumer.Agree (E : Error → Error → Prop) (Q : α → α' → Prop) (G : Graph → Prop)
    (c : Consumer α) (c' : Consumer α') : Prop where
  reply : ∀ {a a'}, Q a a' → ∀ {g}, G g → ∀ {r r'}, EqUpTo E r r' →
    Reply.Agree Q G (c a g r) (c' a' g r')

inductive Cell.Agree (S : σ → σ' → Prop) : Cell σ → Cell σ' → Prop where
  | mk {s : σ} {s' : σ'} (step : S s s') (t : Stage) : Cell.Agree S ⟨s, t⟩ ⟨s', t⟩

/-! ## Runs -/

section Runs

variable {m : Machine σ} {m' : Machine σ'} {S : σ → σ' → Prop} {Q : α → α' → Prop}
  {c : Consumer α} {c' : Consumer α'}

theorem offer_agree (hc : Consumer.Agree E Q G c c') (l : List Value) {a : α} {a' : α'}
    (ha : Q a a') {g : Graph} (hg : G g) :
    Reply.Agree Q G (offer c l a g).1 (offer c' l a' g).1 ∧
      (offer c l a g).2 = (offer c' l a' g).2 := by
  induction l generalizing a a' g with
  | nil => exact ⟨⟨ha, rfl, hg, rfl⟩, rfl⟩
  | cons v l ih =>
    have hreply := hc.reply ha hg (.ok v)
    simp only [offer]
    rw [← hreply.more, ← hreply.graph]
    split
    · exact ih hreply.state hreply.kept
    · exact ⟨hreply, rfl⟩

/-- What is put around a cell: the state of the consumer behind it, and the cell itself. -/
inductive Beside (Q : α → α' → Prop) (S : σ → σ' → Prop) : α × Cell σ → α' × Cell σ' → Prop where
  | mk {a : α} {a' : α'} {x : Cell σ} {x' : Cell σ'} (state : Q a a') (cell : Cell.Agree S x x') :
    Beside Q S (a, x) (a', x')

theorem expandInto_agree (hm : Machine.Agree m m' E S G) (hc : Consumer.Agree E Q G c c') :
    Consumer.Agree E (Beside Q S) G (expandInto m c) (expandInto m' c') := by
  constructor
  rintro _ _ ⟨ha, ⟨hs, t⟩⟩ g hg r r' hr
  rename_i a a' s s'
  cases hr with
  | error he =>
    have hreply := hc.reply ha hg (.error he)
    exact ⟨⟨hreply.state, hs, t⟩, hreply.graph, hreply.kept, hreply.more⟩
  | ok v =>
    obtain ⟨hresult, hstate, hgraph, hkept⟩ := hm.expand hs v hg
    simp only [expandInto]
    rw [← hgraph]
    generalize (m.expand s v g).result = r at hresult
    generalize (m'.expand s' v g).result = r' at hresult
    cases hresult with
    | error he =>
      have hreply := hc.reply ha hkept (.error he)
      exact ⟨⟨hreply.state, hstate, t⟩, hreply.graph, hreply.kept, hreply.more⟩
    | ok l =>
      obtain ⟨hreply, hrest⟩ := offer_agree hc l ha hkept
      dsimp only
      rw [← hrest]
      exact ⟨⟨hreply.state, hstate, _⟩, hreply.graph, hreply.kept, hreply.more⟩

theorem limitInto_agree (hc : Consumer.Agree E Q G c c') (quota : Nat) :
    Consumer.Agree E (Beside Q S) G (limitInto quota c) (limitInto quota c') := by
  constructor
  rintro _ _ ⟨ha, ⟨hs, t⟩⟩ g hg r r' hr
  cases hr with
  | error he =>
    have hreply := hc.reply ha hg (.error he)
    exact ⟨⟨hreply.state, hs, t⟩, hreply.graph, hreply.kept, hreply.more⟩
  | ok v =>
    have hreply := hc.reply ha hg (.ok v)
    simp only [limitInto]
    rw [← hreply.more, ← hreply.graph]
    split <;> exact ⟨⟨hreply.state, hs, _⟩, rfl, hreply.kept, rfl⟩

theorem gatherInto_agree (hc : Consumer.Agree E Q G c c') :
    Consumer.Agree E (Beside Q S) G (gatherInto c) (gatherInto c') := by
  constructor
  rintro _ _ ⟨ha, ⟨hs, t⟩⟩ g hg r r' hr
  cases hr with
  | error he =>
    have hreply := hc.reply ha hg (.error he)
    exact ⟨⟨hreply.state, hs, t⟩, hreply.graph, hreply.kept, hreply.more⟩
  | ok v => exact ⟨⟨ha, hs, _⟩, rfl, hg, rfl⟩

structure Run.Agree (Q : α → α' → Prop) (S : σ → σ' → Prop) (G : Graph → Prop) (o : Run σ α)
    (o' : Run σ' α') : Prop where
  cells : List.Forall₂ (Cell.Agree S) o.cells o'.cells
  source : o.source = o'.source
  reply : Reply.Agree Q G o.reply o'.reply

/-- Runs through a step that agree still do so once the step is back among the others. -/
theorem Run.Agree.handOn {o : Run σ (α × Cell σ)} {o' : Run σ' (α' × Cell σ')}
    (h : Run.Agree (Beside Q S) S G o o') (stage : Bool → Stage → Stage)
    (more : Bool → Stage → Bool) :
    Run.Agree Q S G
      ⟨⟨o.reply.state.2.step, stage o.reply.more o.reply.state.2.stage⟩ :: o.cells, o.source,
        ⟨o.reply.state.1, o.reply.graph, more o.reply.more o.reply.state.2.stage⟩⟩
      ⟨⟨o'.reply.state.2.step, stage o'.reply.more o'.reply.state.2.stage⟩ :: o'.cells, o'.source,
        ⟨o'.reply.state.1, o'.reply.graph, more o'.reply.more o'.reply.state.2.stage⟩⟩ := by
  rcases o with ⟨ys, rest, ⟨b, x⟩, g, ended⟩
  rcases o' with ⟨ys', _, ⟨b', x'⟩, _, _⟩
  rcases h with ⟨hys, rfl, ⟨hb, hx, t⟩, rfl, hg, rfl⟩
  exact ⟨.cons ⟨hx, _⟩ hys, rfl, hb, rfl, hg, rfl⟩

theorem run_agree (hm : Machine.Agree m m' E S G) {xs : List (Cell σ)} {xs' : List (Cell σ')}
    (hx : List.Forall₂ (Cell.Agree S) xs xs') (source : List Value) {α α' : Type}
    {Q : α → α' → Prop} {c : Consumer α} {c' : Consumer α'} (hc : Consumer.Agree E Q G c c')
    {a : α} {a' : α'} (ha : Q a a') {g : Graph} (hg : G g) :
    Run.Agree Q S G (run m xs source c a g) (run m' xs' source c' a' g) := by
  induction hx generalizing α α' g with
  | nil =>
    obtain ⟨hreply, hrest⟩ := offer_agree hc source ha hg
    exact ⟨.nil, hrest, hreply⟩
  | @cons _ _ before before' hcell hbefore ih =>
    rcases hcell with ⟨hs, t⟩
    rename_i s s'
    obtain ⟨hreply, hrest⟩ := offer_agree hc t.buffer ha hg
    simp only [run]
    rw [← hreply.more, ← hreply.graph, ← hrest, ← hm.kind hs]
    generalize offer c t.buffer a g = o at *
    generalize offer c' t.buffer a' g = o' at *
    have hcell : Cell.Agree S ⟨s, { t with buffer := o.2 }⟩ ⟨s', { t with buffer := o.2 }⟩ := ⟨hs, _⟩
    split
    · exact ⟨.cons hcell hbefore, rfl, hreply⟩
    · cases hk : m.kind s with
      | expanding =>
        have hrun := ih (expandInto_agree hm hc) ⟨hreply.state, hcell⟩ hreply.kept
        exact hrun.handOn (fun more t => { t with exhausted := more }) fun more _ => more
      | limiting quota =>
        dsimp only
        split
        · exact ⟨.cons ⟨hs, _⟩ hbefore, rfl, hreply⟩
        · have hrun := ih (limitInto_agree (S := S) hc quota) ⟨hreply.state, hcell⟩ hreply.kept
          exact hrun.handOn (fun more t => { t with exhausted := more || t.exhausted })
            fun more t => more || t.exhausted
      | gathering =>
        -- gathering leaves the step as it is
        have hrun := ih (gatherInto_agree (S := fun s₂ s₂' => s = s₂ ∧ s' = s₂') hc)
          ⟨hreply.state, ⟨rfl, rfl⟩, { t with buffer := o.2 }⟩ hreply.kept
        dsimp only
        generalize run m before source (gatherInto c) _ _ = y at *
        generalize run m' before' source (gatherInto c') _ _ = y' at *
        rcases y with ⟨ys, rest, ⟨b, x⟩, g₂, more⟩
        rcases y' with ⟨ys', _, ⟨b', x'⟩, _, _⟩
        rcases hrun with ⟨hys, rfl, ⟨hb, ⟨rfl, rfl⟩, t₂⟩, rfl, hg₂, rfl⟩
        dsimp only at hb hg₂ ⊢
        split
        · exact ⟨.cons ⟨hs, _⟩ hys, rfl, hb, rfl, hg₂, rfl⟩
        · obtain ⟨hresult, hstate, hgraph, hkept⟩ := hm.release hs hk t₂.gathered.reverse hg₂
          rw [← hgraph]
          generalize (m.release s t₂.gathered.reverse g₂).result = r at hresult
          generalize (m'.release s' t₂.gathered.reverse g₂).result = r' at hresult
          cases hresult with
          | error he => exact ⟨.cons ⟨hstate, _⟩ hys, rfl, hc.reply hb hkept (.error he)⟩
          | ok l =>
            obtain ⟨hreply, hrest⟩ := offer_agree hc l hb hkept
            dsimp only
            rw [← hrest]
            exact ⟨.cons ⟨hstate, _⟩ hys, rfl, hreply⟩

/-! ## Pulls -/

theorem zip_step_stage (l : List (Cell σ)) :
    ((l.map (·.step)).zip (l.map (·.stage))).map (fun (s, t) => (⟨s, t⟩ : Cell σ)) = l := by
  induction l with
  | nil => rfl
  | cons x l ih => exact congr_arg (x :: ·) ih

/-- Steps and stages taken from cells make up those cells again. -/
theorem cells_reverse (xs : List (Cell σ)) :
    cells (xs.reverse.map (·.step)) (xs.reverse.map (·.stage)) = xs := by
  simp only [cells, List.length_map, Nat.sub_self, List.replicate_zero, List.append_nil]
  rw [zip_step_stage, List.reverse_reverse]

theorem cells_agree {steps : List σ} {steps' : List σ'} (h : List.Forall₂ S steps steps')
    (stages : List Stage) :
    List.Forall₂ (Cell.Agree S) (cells steps stages) (cells steps' stages) := by
  rw [cells, cells, ← h.length_eq]
  apply List.rel_reverse
  generalize stages ++ List.replicate (steps.length - stages.length) Stage.fresh = l
  induction h generalizing l with
  | nil => exact .nil
  | cons hs _ ih =>
    cases l with
    | nil => exact .nil
    | cons t l => exact .cons ⟨hs, t⟩ (ih l)

theorem steps_agree {xs : List (Cell σ)} {xs' : List (Cell σ')}
    (h : List.Forall₂ (Cell.Agree S) xs xs') :
    List.Forall₂ S (xs.reverse.map (·.step)) (xs'.reverse.map (·.step)) := by
  rw [List.forall₂_map_left_iff, List.forall₂_map_right_iff, List.forall₂_reverse_iff]
  exact h.imp fun _ _ ⟨hs, _⟩ => hs

theorem stages_agree {xs : List (Cell σ)} {xs' : List (Cell σ')}
    (h : List.Forall₂ (Cell.Agree S) xs xs') :
    xs.reverse.map (·.stage) = xs'.reverse.map (·.stage) := by
  rw [← List.forall₂_eq_eq_eq, List.forall₂_map_left_iff, List.forall₂_map_right_iff,
    List.forall₂_reverse_iff]
  exact h.imp fun _ _ ⟨_, _⟩ => rfl

def takeOne : Consumer (Option (Except Error Value)) := fun _ g r => ⟨some r, g, false⟩

/-- Takes values, the latest first, up to the first error. -/
def takeAll : Consumer (List Value × Option Error) := fun found g r =>
  match r with
  | .ok w => ⟨(w :: found.1, none), g, true⟩
  | .error e => ⟨(found.1, some e), g, false⟩

def taken : List Value × Option Error → Except Error (List Value)
  | (found, none) => .ok found.reverse
  | (_, some e) => .error e

theorem takeOne_agree : Consumer.Agree E (Option.Rel (EqUpTo E)) G takeOne takeOne :=
  ⟨fun _ _ hg _ _ hr => ⟨.some hr, rfl, hg, rfl⟩⟩

def TakenAgree (E : Error → Error → Prop) (a a' : List Value × Option Error) : Prop :=
  a.1 = a'.1 ∧ Option.Rel E a.2 a'.2

theorem takeAll_agree : Consumer.Agree E (TakenAgree E) G takeAll takeAll := by
  constructor
  rintro ⟨_, _⟩ ⟨_, _⟩ ⟨rfl, _⟩ g hg r r' hr
  cases hr with
  | ok w => exact ⟨⟨rfl, .none⟩, rfl, hg, rfl⟩
  | error he => exact ⟨⟨rfl, .some he⟩, rfl, hg, rfl⟩

theorem taken_agree {a a' : List Value × Option Error} (h : TakenAgree E a a') :
    EqUpTo E (taken a) (taken a') := by
  rcases a with ⟨found, e⟩
  rcases a' with ⟨_, e'⟩
  rcases h with ⟨rfl, he⟩
  cases he with
  | none => exact .ok _
  | some he => exact .error he

structure Pull.Agree (E : Error → Error → Prop) (S : σ → σ' → Prop) (G : Graph → Prop)
    (p : Pull σ) (p' : Pull σ') : Prop where
  result : Option.Rel (EqUpTo E) p.result p'.result
  steps : List.Forall₂ S p.steps p'.steps
  flow : p.flow = p'.flow
  graph : p.graph = p'.graph
  kept : G p.graph

theorem pull_agree (hm : Machine.Agree m m' E S G) {steps : List σ} {steps' : List σ'}
    (h : List.Forall₂ S steps steps') (flow : Flow) {g : Graph} (hg : G g) :
    Pull.Agree E S G (flow.pull m steps g) (flow.pull m' steps' g) := by
  obtain ⟨hcells, hsource, hreply⟩ :=
    run_agree hm (cells_agree h flow.stages) flow.source takeOne_agree .none hg
  refine ⟨hreply.state, steps_agree hcells, ?_, hreply.graph, hreply.kept⟩
  exact congr_arg₂ Flow.mk hsource (stages_agree hcells)

theorem firstResult_agree (hm : Machine.Agree m m' E S G) {steps : List σ} {steps' : List σ'}
    (h : List.Forall₂ S steps steps') (v : Value) {g : Graph} (hg : G g) :
    Outcome.Agree E (List.Forall₂ S) G (firstResult m steps v g) (firstResult m' steps' v g) := by
  have hpull := pull_agree hm h (.start [v] steps.length) hg
  rw [firstResult, firstResult, ← h.length_eq]
  refine ⟨?_, hpull.steps, hpull.graph, hpull.kept⟩
  have hresult := hpull.result
  generalize ((Flow.start [v] steps.length).pull m steps g).result = r at hresult
  generalize ((Flow.start [v] steps.length).pull m' steps' g).result = r' at hresult
  rcases hresult with ⟨_ | he⟩ | _
  · exact .ok _
  · exact .error he
  · exact .ok _

theorem allRemaining_agree (hm : Machine.Agree m m' E S G) {steps : List σ} {steps' : List σ'}
    (h : List.Forall₂ S steps steps') (flow : Flow) {g : Graph} (hg : G g) :
    Outcome.Agree E (List.Forall₂ S) G (allRemaining m steps flow g)
      (allRemaining m' steps' flow g) := by
  have hstart : TakenAgree E ([], none) ([], none) := ⟨rfl, .none⟩
  obtain ⟨hcells, -, hreply⟩ :=
    run_agree hm (cells_agree h flow.stages) flow.source takeAll_agree hstart hg
  exact ⟨taken_agree hreply.state, steps_agree hcells, hreply.graph, hreply.kept⟩

theorem allResults_agree (hm : Machine.Agree m m' E S G) {steps : List σ} {steps' : List σ'}
    (h : List.Forall₂ S steps steps') (v : Value) {g : Graph} (hg : G g) :
    Outcome.Agree E (List.Forall₂ S) G (allResults m steps v g) (allResults m' steps' v g) := by
  rw [allResults, allResults, ← h.length_eq]
  exact allRemaining_agree hm h (.start [v] steps.length) hg

end Runs

end GraphTraversal
