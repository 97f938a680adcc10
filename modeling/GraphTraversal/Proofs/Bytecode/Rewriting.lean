import Mathlib.Data.List.Basic
import GraphTraversal.Bytecode.Basic

/-! # Rewriting bytecode

Rules of rewriting say what becomes of a variable and which arguments an operator keeps; they apply at
every depth, except inside variables that are given as labels or keys, which stay as they are.  Putting
values in the place of variables and cutting off arguments that no operator looks at are two such
rewritings, and the order of the two does not matter.
-/

namespace GraphTraversal

/-! ## What operators look at -/

namespace Operator

def takesNames (operator : String) : Bool :=
  operator ∈ ["out", "in", "both", "outE", "inE", "hasLabel", "values", "project"]

/-- How many arguments an operator looks at, if it does not look at all that it is given. -/
def arity? : String → Option Nat
  | "outV" | "inV" | "valueMap" | "label" | "id" | "identity" | "count" | "unfold" | "groupCount"
  | "order" | "drop" => some 0
  | "is" | "limit" | "select" | "filter" | "repeat" | "times" | "by" | "addV" => some 1
  | "has" | "property" | "option" => some 2
  | _ => none

def read {α : Type} (operator : String) (l : List α) : List α :=
  match arity? operator with
  | some n => l.take n
  | none => l

theorem read_map {α β : Type} (f : α → β) (operator : String) (l : List α) :
    read operator (l.map f) = (read operator l).map f := by
  cases h : arity? operator <;> simp [read, h, List.map_take]

theorem mem_of_mem_read {α : Type} {operator : String} {l : List α} {a : α}
    (h : a ∈ read operator l) : a ∈ l := by
  rw [read] at h
  split at h
  case h_1 => exact List.mem_of_mem_take h
  case h_2 => exact h

@[simp] theorem read_read {α : Type} (operator : String) (l : List α) :
    read operator (read operator l) = read operator l := by
  cases h : arity? operator <;> simp [read, h, List.take_take]

end Operator

/-! ## Induction on child bytecode -/

@[simp] theorem Bytecode.eta (b : Bytecode) : ⟨b.source, b.steps⟩ = b := by
  cases b
  rfl

theorem Bytecode.sizeOf_lt_of_argument {b : Bytecode} {i : Instruction} (hi : i ∈ b.instructions)
    {a : Argument} (ha : a ∈ i.arguments) : sizeOf a < sizeOf b := by
  have ha := List.sizeOf_lt_of_mem ha
  obtain ⟨source, steps⟩ := b
  obtain ⟨operator, arguments⟩ := i
  have hi := (List.mem_append.1 hi).imp List.sizeOf_lt_of_mem List.sizeOf_lt_of_mem
  simp at *
  omega

theorem Bytecode.sizeOf_lt_of_child {b : Bytecode} {i : Instruction} (hi : i ∈ b.instructions)
    {code : Bytecode} (hcode : .traversal code ∈ i.arguments) : sizeOf code < sizeOf b := by
  have hcode := sizeOf_lt_of_argument hi hcode
  rw [Argument.traversal.sizeOf_spec] at hcode
  omega

/-- What holds of bytecode if it holds of the child bytecode among its arguments. -/
theorem Bytecode.induction {motive : Bytecode → Prop}
    (h : ∀ b, (∀ i ∈ b.instructions, ∀ code, .traversal code ∈ i.arguments → motive code) → motive b)
    (b : Bytecode) : motive b :=
  h b fun _ _ code _ => Bytecode.induction h code
termination_by sizeOf b
decreasing_by exact sizeOf_lt_of_child ‹_› ‹_›

/-! ## Rules -/

/-- Rules of rewriting: what becomes of a variable whose value has been rewritten, and which of its
rewritten arguments an operator keeps. -/
structure Rewriting where
  bound : String → Argument → Argument
  keep : String → List Argument → List Argument

mutual

/-- Rewrites an argument.  A variable given as a label or key stays as it is, and so does the
configuration of a strategy. -/
def Argument.rewrite (r : Rewriting) (keyed : Bool) : Argument → Argument
  | .binding name value =>
    if keyed then .binding name value else r.bound name (value.rewrite r false)
  | .traversal code => .traversal (code.rewrite r)
  | .literal v => .literal v
  | .token t => .token t
  | .strategy s => .strategy s
  | .lambda f => .lambda f

def Argument.rewriteAll (r : Rewriting) (keyed : Bool) : List Argument → List Argument
  | [] => []
  | a :: l => a.rewrite r keyed :: Argument.rewriteAll r keyed l

def Instruction.rewrite (r : Rewriting) : Instruction → Instruction
  | ⟨operator, arguments⟩ =>
    ⟨operator, r.keep operator (Argument.rewriteAll r (Operator.takesNames operator) arguments)⟩

def Instruction.rewriteAll (r : Rewriting) : List Instruction → List Instruction
  | [] => []
  | i :: l => i.rewrite r :: Instruction.rewriteAll r l

def Bytecode.rewrite (r : Rewriting) : Bytecode → Bytecode
  | ⟨source, steps⟩ => ⟨Instruction.rewriteAll r source, Instruction.rewriteAll r steps⟩

end

section Mapping

variable (r : Rewriting)

theorem Argument.rewriteAll_eq (keyed : Bool) (l : List Argument) :
    Argument.rewriteAll r keyed l = l.map (·.rewrite r keyed) := by
  induction l with
  | nil => rfl
  | cons a l ih => simp [Argument.rewriteAll, ih]

theorem Instruction.rewrite_eq (i : Instruction) :
    i.rewrite r =
      ⟨i.operator, r.keep i.operator (i.arguments.map (·.rewrite r (Operator.takesNames i.operator)))⟩ := by
  cases i
  simp [Instruction.rewrite, Argument.rewriteAll_eq]

@[simp] theorem Instruction.operator_rewrite (i : Instruction) :
    (i.rewrite r).operator = i.operator := by
  rw [Instruction.rewrite_eq]

theorem Instruction.rewriteAll_eq (l : List Instruction) :
    Instruction.rewriteAll r l = l.map (·.rewrite r) := by
  induction l with
  | nil => rfl
  | cons i l ih => simp [Instruction.rewriteAll, ih]

theorem Bytecode.rewrite_eq (b : Bytecode) :
    b.rewrite r = ⟨b.source.map (·.rewrite r), b.steps.map (·.rewrite r)⟩ := by
  cases b
  simp [Bytecode.rewrite, Instruction.rewriteAll_eq]

/-- If values take the place of variables, an argument that stands for a literal becomes it. -/
theorem Argument.rewrite_of_resolve? {r : Rewriting} (hr : ∀ name value, r.bound name value = value)
    {v : Value} : (a : Argument) → a.resolve? = some v → a.rewrite r false = .literal v
  | .literal _, h => by
    cases h
    rfl
  | .binding name value, h => by
    have hvalue := Argument.rewrite_of_resolve? hr value h
    simp [Argument.rewrite, hr, hvalue]
  | .token _, h | .traversal _, h | .strategy _, h | .lambda _, h => by cases h

end Mapping

/-! ## One rewriting after another -/

/-- To rewrite by the second rules after the first is to rewrite by the third. -/
structure Rewriting.Composes (first second third : Rewriting) : Prop where
  bound (name : String) (value : Argument) :
    (first.bound name value).rewrite second false = third.bound name (value.rewrite second false)
  keep (operator : String) (l : List Argument) (f : Argument → Argument) :
    second.keep operator ((first.keep operator l).map f) = third.keep operator (l.map f)

variable {first second third : Rewriting}

mutual

theorem Argument.rewrite_rewrite (h : first.Composes second third) (keyed : Bool) :
    (a : Argument) → (a.rewrite first keyed).rewrite second keyed = a.rewrite third keyed
  | .literal _ | .token _ | .strategy _ | .lambda _ => by simp [Argument.rewrite]
  | .traversal code => by simp [Argument.rewrite, Bytecode.rewrite_rewrite h code]
  | .binding name value => by
    cases keyed with
    | true => simp [Argument.rewrite]
    | false => simp [Argument.rewrite, h.bound, Argument.rewrite_rewrite h false value]

theorem Argument.rewriteAll_rewriteAll (h : first.Composes second third) (keyed : Bool) :
    (l : List Argument) → Argument.rewriteAll second keyed (Argument.rewriteAll first keyed l) =
      Argument.rewriteAll third keyed l
  | [] => rfl
  | a :: l => by
    simp [Argument.rewriteAll, Argument.rewrite_rewrite h keyed a,
      Argument.rewriteAll_rewriteAll h keyed l]

theorem Instruction.rewrite_rewrite (h : first.Composes second third) :
    (i : Instruction) → (i.rewrite first).rewrite second = i.rewrite third
  | ⟨operator, arguments⟩ => by
    have hall := Argument.rewriteAll_rewriteAll h (Operator.takesNames operator) arguments
    rw [Argument.rewriteAll_eq second] at hall
    simp [Instruction.rewrite, Argument.rewriteAll_eq second, h.keep, hall]

theorem Instruction.rewriteAll_rewriteAll (h : first.Composes second third) :
    (l : List Instruction) →
      Instruction.rewriteAll second (Instruction.rewriteAll first l) = Instruction.rewriteAll third l
  | [] => rfl
  | i :: l => by
    simp [Instruction.rewriteAll, Instruction.rewrite_rewrite h i,
      Instruction.rewriteAll_rewriteAll h l]

theorem Bytecode.rewrite_rewrite (h : first.Composes second third) :
    (b : Bytecode) → (b.rewrite first).rewrite second = b.rewrite third
  | ⟨source, steps⟩ => by
    simp [Bytecode.rewrite, Instruction.rewriteAll_rewriteAll h source,
      Instruction.rewriteAll_rewriteAll h steps]

end

/-! ## Values for variables, and no surplus arguments -/

namespace Rewriting

/-- Puts values in the place of variables. -/
def unbinding : Rewriting where
  bound _ value := value
  keep _ l := l

/-- Cuts off what no operator looks at. -/
def trimming : Rewriting where
  bound := .binding
  keep operator l := Operator.read operator l

def plain : Rewriting where
  bound _ value := value
  keep operator l := Operator.read operator l

theorem unbinding_trimming : unbinding.Composes trimming plain where
  bound _ _ := rfl
  keep _ _ _ := rfl

theorem trimming_unbinding : trimming.Composes unbinding plain where
  bound _ _ := by simp [trimming, unbinding, plain, Argument.rewrite]
  keep operator l f := (Operator.read_map f operator l).symm

theorem trimming_trimming : trimming.Composes trimming trimming where
  bound _ _ := by simp [trimming, Argument.rewrite]
  keep operator l f := by simp [trimming, ← Operator.read_map]

end Rewriting

namespace Bytecode

/-- The bytecode with each variable replaced by the argument that it stands for in the end, except
where a label or key is asked for. -/
def unbound (b : Bytecode) : Bytecode := b.rewrite .unbinding

/-- The bytecode without the arguments that its operators do not look at. -/
def trimmed (b : Bytecode) : Bytecode := b.rewrite .trimming

theorem trimmed_unbound (b : Bytecode) : b.unbound.trimmed = b.rewrite .plain :=
  rewrite_rewrite Rewriting.unbinding_trimming b

theorem unbound_trimmed (b : Bytecode) : b.trimmed.unbound = b.rewrite .plain :=
  rewrite_rewrite Rewriting.trimming_unbinding b

@[simp] theorem trimmed_trimmed (b : Bytecode) : b.trimmed.trimmed = b.trimmed :=
  rewrite_rewrite Rewriting.trimming_trimming b

end Bytecode

end GraphTraversal
