import GraphTraversal.Proofs.Traversal.Recording

/-! # The record of what was replayed

Replay either fails or records what it was given: the same instructions with the same arguments, except
that values stand in the place of variables that are not labels or keys, and that several strategies
given to a source at once are recorded one by one.
-/

namespace GraphTraversal

/-! ## Strategies one by one -/

/-- Strategies that a source is given at once are recorded one by one. -/
def Instruction.separate (i : Instruction) : List Instruction :=
  if i.operator = "withStrategies" then i.arguments.map fun a => ⟨i.operator, [a]⟩ else [i]

def Bytecode.separated (b : Bytecode) : Bytecode := { b with source := b.source.flatMap (·.separate) }

theorem Instruction.separate_trimming (i : Instruction) :
    (i.rewrite .trimming).separate = i.separate.map (·.rewrite .trimming) := by
  by_cases h : i.operator = "withStrategies"
  · have hkeep (l : List Argument) : Rewriting.trimming.keep "withStrategies" l = l := rfl
    simp [separate, Instruction.rewrite_eq, h, hkeep]
  · simp [separate, Instruction.rewrite_eq, h]

theorem Bytecode.separated_trimmed (b : Bytecode) : b.trimmed.separated = b.separated.trimmed := by
  simp [trimmed, separated, Bytecode.rewrite_eq, List.flatMap_map, List.map_flatMap,
    Instruction.separate_trimming]

/-! ## Pipelines -/

/-- Child bytecode that is replayed is recorded as it is rewritten. -/
def Bytecode.IsFaithful (b : Bytecode) : Prop :=
  ∀ u, b.replayChild = .ok u → u.bytecode = b.rewrite .plain

/-- An argument is recorded as it is rewritten. -/
theorem Argument.Replayed.eq_rewrite {keyed : Bool} {a a' : Argument} (h : a.Replayed keyed a')
    (hchild : ∀ code, a = .traversal code → code.IsFaithful) : a' = a.rewrite .plain keyed := by
  cases h with
  | bound name value => simp [rewrite]
  | name text => rfl
  | value hv => exact (rewrite_of_resolve? (fun _ _ => rfl) a hv).symm
  | token t => rfl
  | child hu => simp [Traversal.argument, rewrite, hchild _ rfl _ hu]

theorem Argument.eq_map_rewrite {keyed : Bool} {l l' : List Argument}
    (h : List.Forall₂ (Argument.Replayed keyed) l l')
    (hchild : ∀ code, .traversal code ∈ l → code.IsFaithful) :
    l' = l.map (·.rewrite .plain keyed) := by
  induction h with
  | nil => rfl
  | cons ha _ ih =>
    rw [List.map_cons, ← ih fun code hcode => hchild code (List.mem_cons_of_mem _ hcode)]
    rw [ha.eq_rewrite fun code hcode => hchild code (hcode ▸ List.mem_cons_self)]

theorem Instruction.Rerecorded.bytecode_eq {i : Instruction} {t t' : Traversal}
    (h : i.Rerecorded t t') (hchild : ∀ code, .traversal code ∈ i.arguments → code.IsFaithful) :
    t'.bytecode = { t.bytecode with steps := t.bytecode.steps ++ [i.rewrite .plain] } := by
  obtain ⟨l, hcode, hall⟩ := h
  rw [hcode, Bytecode.addStep, Instruction.rewrite_eq]
  rw [Argument.eq_map_rewrite hall fun code h => hchild code (Operator.mem_of_mem_read h)]
  rw [← Operator.read_map]
  rfl

theorem Instruction.bytecode_of_replaySteps {l : List Instruction}
    (hchild : ∀ i ∈ l, ∀ code, .traversal code ∈ i.arguments → code.IsFaithful)
    {t t' : Traversal} (h : replaySteps t l = .ok t') :
    t'.bytecode = { t.bytecode with steps := t.bytecode.steps ++ l.map (·.rewrite .plain) } := by
  induction l generalizing t with
  | nil =>
    cases h
    simp
  | cons i l ih =>
    rw [replaySteps_cons] at h
    obtain ⟨u, hu, h⟩ := Except.exists_of_bind h
    obtain ⟨hi, hl⟩ := List.forall_mem_cons.1 hchild
    have hrerecorded : i.Rerecorded t u := Recall.rerecorded_of_step hu
    rw [ih hl h, hrerecorded.bytecode_eq hi]
    simp

theorem Bytecode.isFaithful (b : Bytecode) : b.IsFaithful := by
  induction b using Bytecode.induction with
  | h b ih =>
    intro u hu
    obtain ⟨hsource, hsteps⟩ := exists_of_replayChild hu
    have hchild (i : Instruction) (hi : i ∈ b.steps) := ih i (List.mem_append_right _ hi)
    rw [Instruction.bytecode_of_replaySteps hchild hsteps, Bytecode.rewrite_eq, hsource]
    rfl

/-! ## Sources -/

namespace Source

theorem bytecode_of_withStrategies {ss : List Strategy} {src src' : Source}
    (h : ss.foldlM withStrategy src = .ok src') :
    src'.bytecode = { src.bytecode with
      source := src.bytecode.source ++ ss.map fun s => ⟨"withStrategies", [.strategy s]⟩ } := by
  induction ss generalizing src with
  | nil =>
    cases h
    simp
  | cons s ss ih =>
    rw [List.foldlM_cons] at h
    obtain ⟨next, hnext, h⟩ := Except.exists_of_bind h
    obtain ⟨set, -, rfl⟩ := Except.exists_of_map hnext
    simp [ih h, Bytecode.addSource]

/-- A source instruction is recorded as it is rewritten, strategies one by one. -/
theorem bytecode_of_recall {i : Instruction} {src src' : Source}
    (h : Recall.source ⟨i.operator, Argument.operands i.arguments⟩ src = .ok src') :
    src'.bytecode = { src.bytecode with
      source := src.bytecode.source ++ (i.rewrite .plain).separate } := by
  obtain ⟨operator, arguments⟩ := i
  rw [Recall.source] at h
  dsimp only at h
  split at h
  case h_1 =>
    obtain ⟨ss, hss, h⟩ := Except.exists_of_bind h
    have hrewrite : Instruction.rewrite .plain ⟨"withStrategies", arguments⟩ =
        ⟨"withStrategies", arguments⟩ := by
      rw [Instruction.rewrite_eq, Recall.eq_of_strategies hss]
      change Instruction.mk _ (List.map _ _) = _
      simp [Argument.rewrite]
    rw [bytecode_of_withStrategies h, hrewrite, Recall.eq_of_strategies hss]
    simp [Instruction.separate]
  case h_2 =>
    obtain ⟨names, hnames, h⟩ := Except.exists_of_bind h
    cases h
    have hall := Argument.eq_map_rewrite (Recall.forall₂_of_strings hnames) fun code _ => code.isFaithful
    rw [withoutStrategies, hall, Instruction.rewrite_eq]
    rfl
  case h_3 => cases h

theorem bytecode_of_replay {l : List Instruction} {src src' : Source} (h : src.replay l = .ok src') :
    src'.bytecode = { src.bytecode with
      source := src.bytecode.source ++ l.flatMap fun i => (i.rewrite .plain).separate } := by
  induction l generalizing src with
  | nil =>
    cases h
    simp
  | cons i l ih =>
    rw [replay, List.foldlM_cons] at h
    obtain ⟨next, hnext, h⟩ := Except.exists_of_bind h
    rw [ih h, bytecode_of_recall hnext]
    simp

/-- A query that is replayed from a source without a record has the rewritten bytecode, strategies one by
one. -/
theorem bytecode_of_replayQuery {src : Source} (hsrc : src.bytecode = {}) {b : Bytecode} {q : Query}
    (h : src.replayQuery b = .ok q) : q.traversal.bytecode = (b.rewrite .plain).separated := by
  obtain ⟨src', hsource, h⟩ := Except.exists_of_bind h
  obtain ⟨t, ht, h⟩ := Except.exists_of_bind h
  cases h
  have hchild (i : Instruction) (_ : i ∈ b.steps) (code : Bytecode)
      (_ : .traversal code ∈ i.arguments) : code.IsFaithful := code.isFaithful
  have hsteps := Instruction.bytecode_of_replaySteps hchild ht
  change t.bytecode = _
  rw [hsteps, start, bytecode_of_replay hsource, hsrc, Bytecode.rewrite_eq]
  simp [Bytecode.separated, List.flatMap_map]

/-- A replayed query has the bytecode that it was replayed from, with values in the place of variables
that are not labels or keys and with strategies one by one: the two agree on every instruction and on
every argument that an operator looks at, at every depth, and they are equal if no operator was given
more than it looks at. -/
theorem replayQuery_faithful {src : Source} (hsrc : src.bytecode = {}) {b : Bytecode} {q : Query}
    (h : src.replayQuery b = .ok q) :
    q.traversal.bytecode.trimmed = b.unbound.separated.trimmed ∧
      (b.trimmed = b → q.traversal.bytecode = b.unbound.separated) := by
  have hbytecode := bytecode_of_replayQuery hsrc h
  constructor
  · rw [hbytecode, ← Bytecode.trimmed_unbound, Bytecode.separated_trimmed, Bytecode.trimmed_trimmed]
  · intro hb
    rw [hbytecode, ← Bytecode.unbound_trimmed, hb]

end Source

def Bytecode.parametric : Bytecode where
  source := [⟨"withStrategies", [.strategy .readOnly, .strategy .lambdaRestriction]⟩]
  steps := [⟨"V", [.binding "id" (.literal (.integer 1))]⟩,
    ⟨"out", [.binding "label" (.literal (.string "knows"))]⟩,
    ⟨"filter", [.traversal ⟨[], [⟨"has", [.binding "key" (.literal (.string "age")),
      .binding "age" (.binding "years" (.literal (.integer 29)))]⟩]⟩]⟩]

theorem Source.replayQuery_parametric : ∃ q, standard.replayQuery .parametric = .ok q ∧
    q.traversal.bytecode.trimmed = Bytecode.parametric.unbound.separated.trimmed ∧
    q.traversal.bytecode = Bytecode.parametric.unbound.separated := by
  have hq : standard.replayQuery .parametric = .ok _ := rfl
  have hfaithful := replayQuery_faithful rfl hq
  exact ⟨_, hq, hfaithful.1, hfaithful.2 rfl⟩

def Bytecode.overfull : Bytecode where
  steps := [⟨"V", []⟩, ⟨"outV", [.literal (.string "x")]⟩]

def Bytecode.checkedTwice : Bytecode where
  source := [⟨"withStrategies", [.strategy .readOnly, .strategy .lambdaRestriction]⟩]
  steps := [⟨"V", []⟩]

/-- An argument that no operator looks at is lost, and strategies given at once come apart. -/
theorem Source.replayQuery_unfaithful :
    (∃ q, standard.replayQuery .overfull = .ok q ∧
      (q.traversal.bytecode == Bytecode.overfull.unbound) = false) ∧
    ∃ q, standard.replayQuery .checkedTwice = .ok q ∧
      (q.traversal.bytecode == Bytecode.checkedTwice.unbound) = false := by
  constructor
  · exact ⟨_, rfl, by decide +kernel⟩
  · exact ⟨_, rfl, by decide +kernel⟩

end GraphTraversal
