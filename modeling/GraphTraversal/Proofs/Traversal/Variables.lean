import GraphTraversal.Proofs.Data.Related
import GraphTraversal.Proofs.Traversal.Recording

/-! # Variables that stand for literals

Replay looks through variables only to literals.  If each variable that it meets outside labels and keys
stands for a literal, then replay does the same with the values in the place of the variables; where one
stands for anything else, replay fails.
-/

namespace GraphTraversal

/-! ## What replay sees -/

/-- What replay sees of an operand: of a variable outside labels and keys the literal that it stands
for, if it is one, and of child bytecode the child. -/
def Operand.seen (keyed : Bool) (o : Operand) : Operand :=
  match o.argument with
  | .binding _ value =>
    if keyed then o else
      match value.resolve? with
      | some v => ⟨.literal v, o.child⟩
      | none => o
  | .traversal _ => ⟨.traversal {}, o.child⟩
  | _ => o

def Operator.view (operator : String) (l : List Operand) : List Operand :=
  (read operator l).map (·.seen (takesNames operator))

/-- Outside labels and keys, an operator sees each operand that it looks at by itself. -/
theorem Operator.getElem?_view {operator : String} (hnames : takesNames operator = false) {index : Nat}
    (hindex : ∀ n ∈ arity? operator, index < n) (l : List Operand) :
    (view operator l)[index]? = l[index]?.map (·.seen false) := by
  cases hn : arity? operator with
  | none => simp [view, read, hn, hnames]
  | some n => simp [view, read, hn, hnames, hindex n hn]

theorem Operator.view_eq {operator : String} (hall : arity? operator = none) {keyed : Bool}
    (hnames : takesNames operator = keyed) (l : List Operand) :
    view operator l = l.map (·.seen keyed) := by
  simp [view, read, hall, hnames]

namespace Recall

variable {operator : String} {l m : List Operand}

section OneOperand

variable {index : Nat} (h : m[index]? = l[index]?.map (·.seen false))
include h

/-- What is made of an operand is the same if it is made alike of variables and their literals, and of
all child bytecode with one child. -/
theorem operand_bind_seen {α : Type} {f : Operand → Except Error α}
    (hliteral : ∀ name value v child, value.resolve? = some v →
      f ⟨.literal v, child⟩ = f ⟨.binding name value, child⟩)
    (htraversal : ∀ code child, f ⟨.traversal {}, child⟩ = f ⟨.traversal code, child⟩) :
    operand ⟨operator, m⟩ index >>= f = operand ⟨operator, l⟩ index >>= f := by
  simp only [operand, h]
  cases l[index]? with
  | none => rfl
  | some o =>
    obtain ⟨a, child⟩ := o
    cases a with
    | binding name value =>
      cases hv : value.resolve? with
      | none => simp [Operand.seen, hv]
      | some v =>
        have hseen : Operand.seen false ⟨.binding name value, child⟩ = ⟨.literal v, child⟩ := by
          simp [Operand.seen, hv]
        rw [Option.map_some, hseen]
        exact hliteral name value v child hv
    | traversal code => exact htraversal code child
    | _ => rfl

theorem literal_seen : literal ⟨operator, m⟩ index = literal ⟨operator, l⟩ index := by
  apply operand_bind_seen h
  · intro name value v child hv
    simp [Argument.resolve?, hv]
  · intro code child
    rfl

theorem string_seen : string ⟨operator, m⟩ index = string ⟨operator, l⟩ index := by
  rw [string, string, literal_seen h]
  rfl

theorem natural_seen : natural ⟨operator, m⟩ index = natural ⟨operator, l⟩ index := by
  rw [natural, natural, literal_seen h]
  rfl

theorem token_seen : token ⟨operator, m⟩ index = token ⟨operator, l⟩ index :=
  operand_bind_seen h (fun _ _ _ _ _ => rfl) fun _ _ => rfl

theorem child_seen : child ⟨operator, m⟩ index = child ⟨operator, l⟩ index :=
  operand_bind_seen h (fun _ _ _ _ _ => rfl) fun _ _ => rfl

end OneOperand

theorem optionToken_seen (h : m[0]? = l[0]?.map (·.seen false)) :
    optionToken ⟨operator, m⟩ = optionToken ⟨operator, l⟩ := by
  apply operand_bind_seen h
  · intro name value v child hv
    simp [Argument.resolve?, hv]
  · intro code child
    rfl

section AllOperands

variable (hall : Operator.arity? operator = none)
include hall

theorem names_view (hnames : Operator.takesNames operator = true) :
    names ⟨operator, Operator.view operator l⟩ = names ⟨operator, l⟩ := by
  simp only [names, Operator.view_eq hall hnames, List.mapM_map]
  congr 1
  funext o
  obtain ⟨a, child⟩ := o
  cases a <;> rfl

variable (hnames : Operator.takesNames operator = false)
include hnames

theorem strategies_view :
    strategies ⟨operator, Operator.view operator l⟩ = strategies ⟨operator, l⟩ := by
  simp only [strategies, Operator.view_eq hall hnames, List.mapM_map]
  congr 1
  funext o
  obtain ⟨a, child⟩ := o
  cases a with
  | binding name value => cases hv : value.resolve? <;> simp [Operand.seen, hv] <;> rfl
  | _ => rfl

theorem length_view : (Operator.view operator l).length = l.length := by
  rw [Operator.view_eq hall hnames, List.length_map]

theorem getElem?_view (index : Nat) :
    (Operator.view operator l)[index]? = l[index]?.map (·.seen false) :=
  Operator.getElem?_view hnames (by simp [hall]) l

theorem mapM_range_view {α : Type} {f g : Nat → Except Error α} (h : ∀ index, f index = g index) :
    (List.range (Operator.view operator l).length).mapM f = (List.range l.length).mapM g := by
  rw [length_view hall hnames, funext h]

theorem literals_view : literals ⟨operator, Operator.view operator l⟩ = literals ⟨operator, l⟩ :=
  mapM_range_view hall hnames fun index => literal_seen (getElem?_view hall hnames index)

theorem strings_view : strings ⟨operator, Operator.view operator l⟩ = strings ⟨operator, l⟩ :=
  mapM_range_view hall hnames fun index => string_seen (getElem?_view hall hnames index)

theorem children_view : children ⟨operator, Operator.view operator l⟩ = children ⟨operator, l⟩ :=
  mapM_range_view hall hnames fun index => child_seen (getElem?_view hall hnames index)

end AllOperands

/-- A pipeline instruction is replayed by what its operator sees. -/
theorem step_view (t : Traversal) :
    step ⟨operator, Operator.view operator l⟩ t = step ⟨operator, l⟩ t := by
  rw [step, step]
  dsimp only
  split
  -- V
  case h_1 => rw [literals_view rfl rfl]
  -- The operators that take labels or keys.
  case h_2 | h_3 | h_4 | h_5 | h_6 | h_9 | h_11 | h_28 => rw [names_view rfl rfl]
  -- The operators that look at no argument.
  case h_7 | h_8 | h_12 | h_13 | h_14 | h_15 | h_16 | h_19 | h_27 | h_29 | h_33 => rfl
  -- has, property
  case h_10 | h_32 =>
    rw [string_seen (Operator.getElem?_view rfl (by decide) l),
      literal_seen (Operator.getElem?_view rfl (by decide) l)]
  -- is
  case h_17 => rw [literal_seen (Operator.getElem?_view rfl (by decide) l)]
  -- limit, times
  case h_18 | h_24 => rw [natural_seen (Operator.getElem?_view rfl (by decide) l)]
  -- select
  case h_20 =>
    rw [token_seen (Operator.getElem?_view rfl (by decide) l)]
    rfl
  -- filter, repeat
  case h_21 | h_23 => rw [child_seen (Operator.getElem?_view rfl (by decide) l)]
  -- and
  case h_22 => rw [children_view rfl rfl]
  -- choose
  case h_25 =>
    rw [length_view rfl rfl, child_seen (getElem?_view rfl rfl 0),
      child_seen (getElem?_view rfl rfl 1), child_seen (getElem?_view rfl rfl 2)]
    rfl
  -- option
  case h_26 =>
    rw [optionToken_seen (Operator.getElem?_view rfl (by decide) l),
      child_seen (Operator.getElem?_view rfl (by decide) l)]
  -- by
  case h_30 =>
    have hfirst : (Operator.view "by" l)[0]? = l[0]?.map (·.seen false) :=
      Operator.getElem?_view rfl (by decide) l
    rw [child_seen hfirst]
    exact operand_bind_seen hfirst (fun _ _ _ _ _ => rfl) fun _ _ => rfl
  -- addV
  case h_31 => rw [string_seen (Operator.getElem?_view rfl (by decide) l)]
  case h_34 => rfl

/-- A source instruction is replayed by what its operator sees. -/
theorem source_view (src : Source) :
    source ⟨operator, Operator.view operator l⟩ src = source ⟨operator, l⟩ src := by
  rw [source, source]
  dsimp only
  split
  case h_1 => rw [strategies_view rfl rfl]
  case h_2 => rw [strings_view rfl rfl]
  case h_3 => rfl

end Recall

/-! ## Legible bytecode -/

mutual

/-- Whether every variable that replay meets in an argument stands for a literal, unless it is a label
or key. -/
def Argument.legible (keyed : Bool) : Argument → Bool
  | .binding _ value => keyed || value.resolve?.isSome
  | .traversal code => code.legible
  | .literal _ | .token _ | .strategy _ | .lambda _ => true

def Argument.legibles (keyed : Bool) : List Argument → List Bool
  | [] => []
  | a :: l => a.legible keyed :: Argument.legibles keyed l

def Instruction.legible : Instruction → Bool
  | ⟨operator, arguments⟩ =>
    (Operator.read operator (Argument.legibles (Operator.takesNames operator) arguments)).all (·)

def Instruction.allLegible : List Instruction → Bool
  | [] => true
  | i :: l => i.legible && Instruction.allLegible l

def Bytecode.legible : Bytecode → Bool
  | ⟨source, steps⟩ => Instruction.allLegible source && Instruction.allLegible steps

end

theorem Argument.legibles_eq (keyed : Bool) (l : List Argument) :
    Argument.legibles keyed l = l.map (·.legible keyed) := by
  induction l with
  | nil => rfl
  | cons a l ih => simp [Argument.legibles, ih]

theorem Instruction.legible_iff (i : Instruction) : i.legible ↔
    ∀ a ∈ Operator.read i.operator i.arguments, a.legible (Operator.takesNames i.operator) := by
  cases i
  simp [Instruction.legible, Argument.legibles_eq, Operator.read_map]

theorem Instruction.allLegible_iff (l : List Instruction) :
    Instruction.allLegible l ↔ ∀ i ∈ l, i.legible := by
  induction l with
  | nil => simp [Instruction.allLegible]
  | cons i l ih => simp [Instruction.allLegible, ih]

theorem Bytecode.legible_iff (b : Bytecode) :
    b.legible ↔ (∀ i ∈ b.source, i.legible) ∧ ∀ i ∈ b.steps, i.legible := by
  cases b
  simp [Bytecode.legible, Instruction.allLegible_iff]

/-! ## Legible bytecode is replayed by its values -/

/-- Legible child bytecode is replayed as it is with values in the place of variables. -/
def Bytecode.IsTransparent (b : Bytecode) : Prop :=
  b.legible → b.unbound.replayChild = b.replayChild

theorem Argument.seen_unbinding {keyed : Bool} {a : Argument} (ha : a.legible keyed)
    (hchild : ∀ code, a = .traversal code → code.IsTransparent) :
    (a.rewrite .unbinding keyed).operand.seen keyed = a.operand.seen keyed := by
  cases a with
  | traversal code =>
    have hcode : (code.rewrite .unbinding).replayChild = code.replayChild := hchild code rfl ha
    simp [rewrite, operand, Operand.seen, hcode]
  | binding name value =>
    cases keyed with
    | true => simp [rewrite]
    | false =>
      obtain ⟨v, hv⟩ := Option.isSome_iff_exists.1 ha
      have hliteral : (Argument.binding name value).rewrite .unbinding false = .literal v :=
        rewrite_of_resolve? (fun _ _ => rfl) _ hv
      rw [hliteral]
      simp [operand, Operand.seen, hv]
  | _ => simp [rewrite]

/-- The operator of a legible instruction sees the same when values are in the place of variables. -/
theorem Instruction.view_unbinding {i : Instruction} (hi : i.legible)
    (hchild : ∀ code, .traversal code ∈ i.arguments → code.IsTransparent) :
    Operator.view i.operator (Argument.operands (i.rewrite .unbinding).arguments) =
      Operator.view i.operator (Argument.operands i.arguments) := by
  have hkeep (l : List Argument) : Rewriting.unbinding.keep i.operator l = l := rfl
  simp only [Operator.view, Argument.operands_eq, Instruction.rewrite_eq, hkeep, Operator.read_map,
    List.map_map]
  apply List.map_congr_left
  intro a ha
  have hlegible := (legible_iff i).1 hi a ha
  exact Argument.seen_unbinding hlegible fun code hcode =>
    hchild code (hcode ▸ Operator.mem_of_mem_read ha)

theorem Instruction.replaySteps_unbinding {l : List Instruction} (hl : ∀ i ∈ l, i.legible)
    (hchild : ∀ i ∈ l, ∀ code, .traversal code ∈ i.arguments → code.IsTransparent) (t : Traversal) :
    replaySteps t (l.map (·.rewrite .unbinding)) = replaySteps t l := by
  induction l generalizing t with
  | nil => rfl
  | cons i l ih =>
    obtain ⟨hi, hl⟩ := List.forall_mem_cons.1 hl
    obtain ⟨hichild, hchild⟩ := List.forall_mem_cons.1 hchild
    have hstep : Recall.step ⟨i.operator, Argument.operands (i.rewrite .unbinding).arguments⟩ t =
        Recall.step ⟨i.operator, Argument.operands i.arguments⟩ t := by
      rw [← Recall.step_view, view_unbinding hi hichild, Recall.step_view]
    rw [List.map_cons, replaySteps_cons, replaySteps_cons, operator_rewrite, hstep]
    simp only [ih hl hchild]

theorem Bytecode.isTransparent (b : Bytecode) : b.IsTransparent := by
  induction b using Bytecode.induction with
  | h b ih =>
    intro hb
    have hsteps := Instruction.replaySteps_unbinding ((legible_iff b).1 hb).2 fun i hi =>
      ih i (List.mem_append_right _ hi)
    obtain ⟨source, steps⟩ := b
    rw [unbound, Bytecode.rewrite_eq]
    cases source with
    | nil => exact hsteps .start
    | cons i source => simp [replayChild]

namespace Source

theorem replay_unbinding {l : List Instruction} (hl : ∀ i ∈ l, i.legible) (src : Source) :
    src.replay (l.map (·.rewrite .unbinding)) = src.replay l := by
  induction l generalizing src with
  | nil => rfl
  | cons i l ih =>
    obtain ⟨hi, hl⟩ := List.forall_mem_cons.1 hl
    have hsource : Recall.source ⟨i.operator, Argument.operands (i.rewrite .unbinding).arguments⟩ src =
        Recall.source ⟨i.operator, Argument.operands i.arguments⟩ src := by
      rw [← Recall.source_view, Instruction.view_unbinding hi fun code _ => code.isTransparent,
        Recall.source_view]
    simp only [replay] at ih
    simp only [replay, List.map_cons, List.foldlM_cons, Instruction.operator_rewrite, hsource, ih hl]

/-- Legible bytecode is replayed as it is with values in the place of variables, errors included. -/
theorem replayQuery_unbound {b : Bytecode} (hb : b.legible) (src : Source) :
    src.replayQuery b.unbound = src.replayQuery b := by
  obtain ⟨hsource, hsteps⟩ := (Bytecode.legible_iff b).1 hb
  rw [replayQuery, replayQuery, Bytecode.unbound, Bytecode.rewrite_eq]
  simp only [replay_unbinding hsource,
    Instruction.replaySteps_unbinding hsteps fun _ _ code _ => code.isTransparent]

end Source

/-! ## What is replayed is legible -/

theorem Argument.Replayed.legible {keyed : Bool} {a a' : Argument} (h : a.Replayed keyed a')
    (hchild : ∀ code u, a = .traversal code → code.replayChild = .ok u → code.legible) :
    a.legible keyed := by
  cases h with
  | bound name value => rfl
  | name text => rfl
  | value hv =>
    cases a with
    | binding name value =>
      rw [Argument.resolve?] at hv
      simp [Argument.legible, hv]
    | literal => rfl
    | _ => cases hv
  | token t => rfl
  | child hu => exact hchild _ _ rfl hu

theorem Instruction.Rerecorded.legible {i : Instruction} {t t' : Traversal} (h : i.Rerecorded t t')
    (hchild : ∀ code u, .traversal code ∈ i.arguments → code.replayChild = .ok u → code.legible) :
    i.legible := by
  obtain ⟨l, -, hall⟩ := h
  have hread := forall₂_imp_of_mem hall fun a ha _ _ hreplayed =>
    hreplayed.legible fun code u hcode => hchild code u (hcode ▸ Operator.mem_of_mem_read ha)
  rw [legible_iff]
  exact forall_mem_left hread fun _ _ hlegible => hlegible

theorem Instruction.legible_of_replaySteps {l : List Instruction}
    (hchild : ∀ i ∈ l, ∀ code u, .traversal code ∈ i.arguments → code.replayChild = .ok u →
      code.legible) {t t' : Traversal} (h : replaySteps t l = .ok t') : ∀ i ∈ l, i.legible := by
  induction l generalizing t with
  | nil => simp
  | cons i l ih =>
    rw [replaySteps_cons] at h
    obtain ⟨u, hu, h⟩ := Except.exists_of_bind h
    obtain ⟨hi, hl⟩ := List.forall_mem_cons.1 hchild
    have hrerecorded : i.Rerecorded t u := Recall.rerecorded_of_step hu
    exact List.forall_mem_cons.2 ⟨hrerecorded.legible hi, ih hl h⟩

theorem Bytecode.legible_of_replayChild {b : Bytecode} {u : Traversal} (h : b.replayChild = .ok u) :
    b.legible := by
  induction b using Bytecode.induction generalizing u with
  | h b ih =>
    obtain ⟨hsource, hsteps⟩ := exists_of_replayChild h
    have hlegible : ∀ i ∈ b.steps, i.legible := by
      apply Instruction.legible_of_replaySteps _ hsteps
      intro i hi code u hcode hu
      exact ih i (List.mem_append_right _ hi) code hcode hu
    rw [legible_iff, hsource]
    exact ⟨by simp, hlegible⟩

namespace Source

theorem legible_of_recall {i : Instruction} {src src' : Source}
    (h : Recall.source ⟨i.operator, Argument.operands i.arguments⟩ src = .ok src') : i.legible := by
  obtain ⟨operator, arguments⟩ := i
  rw [Instruction.legible_iff]
  rw [Recall.source] at h
  dsimp only at h
  split at h
  case h_1 =>
    obtain ⟨ss, hss, h⟩ := Except.exists_of_bind h
    rw [Recall.eq_of_strategies hss]
    intro a ha
    obtain ⟨s, -, rfl⟩ := List.mem_map.1 (Operator.mem_of_mem_read ha)
    rfl
  case h_2 =>
    obtain ⟨names, hnames, h⟩ := Except.exists_of_bind h
    exact forall_mem_left (Recall.forall₂_of_strings hnames) fun a _ hreplayed =>
      hreplayed.legible fun _ _ _ => Bytecode.legible_of_replayChild
  case h_3 => cases h

theorem legible_of_replay {l : List Instruction} {src src' : Source} (h : src.replay l = .ok src') :
    ∀ i ∈ l, i.legible := by
  induction l generalizing src with
  | nil => simp
  | cons i l ih =>
    rw [replay, List.foldlM_cons] at h
    obtain ⟨next, hnext, h⟩ := Except.exists_of_bind h
    exact List.forall_mem_cons.2 ⟨legible_of_recall hnext, ih h⟩

theorem legible_of_replayQuery {src : Source} {b : Bytecode} {q : Query}
    (h : src.replayQuery b = .ok q) : b.legible := by
  obtain ⟨src', hsource, h⟩ := Except.exists_of_bind h
  obtain ⟨t, ht, h⟩ := Except.exists_of_bind h
  have hsteps := Instruction.legible_of_replaySteps
    (fun _ _ _ _ _ => Bytecode.legible_of_replayChild) ht
  exact (Bytecode.legible_iff b).2 ⟨legible_of_replay hsource, hsteps⟩

/-- Bytecode is replayed to a query just if it is legible and is replayed to the same query with values
in the place of variables. -/
theorem replayQuery_iff_unbound {src : Source} {b : Bytecode} {q : Query} :
    src.replayQuery b = .ok q ↔ b.legible ∧ src.replayQuery b.unbound = .ok q := by
  constructor
  · intro h
    have hb := legible_of_replayQuery h
    exact ⟨hb, (replayQuery_unbound hb src).trans h⟩
  · rintro ⟨hb, h⟩
    exact (replayQuery_unbound hb src).symm.trans h

end Source

def Bytecode.indirect : Bytecode where
  steps := [⟨"V", []⟩, ⟨"select", [.binding "c" (.token (.column .keys))]⟩]

/-- A token is replayed where a variable for it is refused. -/
theorem Source.replayQuery_indirect : (∃ q, standard.replayQuery Bytecode.indirect.unbound = .ok q) ∧
    standard.replayQuery .indirect = .error (.replay "select" .notToken) :=
  ⟨⟨_, rfl⟩, rfl⟩

end GraphTraversal
