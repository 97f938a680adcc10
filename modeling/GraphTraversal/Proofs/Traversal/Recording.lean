import GraphTraversal.Proofs.Bytecode.Rewriting
import GraphTraversal.Proofs.Traversal.Replaying

/-! # What replay records

An instruction that is replayed is recorded again, under the same operator, with what its operator has
made of the arguments that it looks at: variables given as labels or keys, literals in the place of all
others, tokens, and the rebuilt bytecode of child traversals.
-/

namespace GraphTraversal

/-- What an argument that replay accepts is recorded as, among labels and keys or elsewhere. -/
inductive Argument.Replayed : Bool → Argument → Argument → Prop where
  | bound (name : String) (value : Argument) :
    Replayed true (.binding name value) (.binding name value)
  | name (text : String) : Replayed true (.literal (.string text)) (.literal (.string text))
  | value {a : Argument} {v : Value} (h : a.resolve? = some v) : Replayed false a (.literal v)
  | token (t : Token) : Replayed false (.token t) (.token t)
  | child {code : Bytecode} {u : Traversal} (h : code.replayChild = .ok u) :
    Replayed false (.traversal code) u.argument

def Argument.ReplayedAt (l : List Argument) (index : Nat) (a' : Argument) : Prop :=
  ∃ a, l[index]? = some a ∧ a.Replayed false a'

theorem Argument.ReplayedAt.tail {l : List Argument} {index : Nat} {a' : Argument}
    (h : ReplayedAt l (index + 1) a') : ReplayedAt l.tail index a' := by
  simpa [ReplayedAt] using h

/-- The instruction is replayed on `t` and recorded again. -/
def Instruction.Rerecorded (i : Instruction) (t t' : Traversal) : Prop :=
  ∃ l, t'.bytecode = t.bytecode.addStep i.operator l ∧
    List.Forall₂ (Argument.Replayed (Operator.takesNames i.operator))
      (Operator.read i.operator i.arguments) l

theorem Instruction.replaySteps_cons (t : Traversal) (i : Instruction) (l : List Instruction) :
    replaySteps t (i :: l) =
      Recall.step ⟨i.operator, Argument.operands i.arguments⟩ t >>= fun t => replaySteps t l := by
  cases i
  rfl

theorem Bytecode.exists_of_replayChild {b : Bytecode} {u : Traversal} (h : b.replayChild = .ok u) :
    b.source = [] ∧ Instruction.replaySteps .start b.steps = .ok u := by
  obtain ⟨source, steps⟩ := b
  cases source with
  | nil => exact ⟨rfl, h⟩
  | cons => cases h

namespace Recall

/-! ## Arguments one by one -/

variable {operator : String} {l : List Argument} {index : Nat}

theorem exists_of_operand {o : Operand}
    (h : operand ⟨operator, Argument.operands l⟩ index = .ok o) :
    ∃ a, l[index]? = some a ∧ o = a.operand := by
  simp only [operand, Argument.operands_eq, List.getElem?_map] at h
  cases ha : l[index]? with
  | none =>
    rw [ha] at h
    cases h
  | some a =>
    rw [ha] at h
    cases a with
    | lambda f => cases h
    | _ =>
      cases h
      exact ⟨_, rfl, rfl⟩

@[simp] theorem argument_operand (a : Argument) : a.operand.argument = a := by
  cases a <;> rfl

theorem replayedAt_of_literal {v : Value}
    (h : literal ⟨operator, Argument.operands l⟩ index = .ok v) :
    Argument.ReplayedAt l index (.literal v) := by
  obtain ⟨o, ho, h⟩ := Except.exists_of_bind h
  obtain ⟨a, ha, rfl⟩ := exists_of_operand ho
  rw [argument_operand] at h
  split at h
  case h_1 v' hv =>
    cases h
    exact ⟨a, ha, .value hv⟩
  case h_2 => cases h

theorem replayedAt_of_string {s : String}
    (h : string ⟨operator, Argument.operands l⟩ index = .ok s) :
    Argument.ReplayedAt l index (.literal (.string s)) := by
  obtain ⟨v, hv, h⟩ := Except.exists_of_bind h
  split at h
  case h_1 =>
    cases h
    exact replayedAt_of_literal hv
  case h_2 => cases h

theorem ofSize_toNat {n : Int64} (hn : 0 ≤ n.toInt) : Value.ofSize n.toInt.toNat = .integer n := by
  have hlt : n.toInt.toNat < Nat.pow 2 63 := by
    have := n.toInt_lt
    simp only [Nat.pow_eq]
    omega
  rw [Value.ofSize_eq hlt]
  congr 1
  rw [← Int64.toInt_inj, Int64.toInt_ofNat_of_lt hlt]
  omega

theorem replayedAt_of_natural {n : Nat}
    (h : natural ⟨operator, Argument.operands l⟩ index = .ok n) :
    Argument.ReplayedAt l index (.literal (.ofSize n)) := by
  obtain ⟨v, hv, h⟩ := Except.exists_of_bind h
  split at h
  case h_1 m =>
    split at h
    case isTrue hm =>
      cases h
      rw [ofSize_toNat hm]
      exact replayedAt_of_literal hv
    case isFalse => cases h
  case h_2 => cases h

theorem replayedAt_of_token {t : Token}
    (h : token ⟨operator, Argument.operands l⟩ index = .ok t) :
    Argument.ReplayedAt l index (.token t) := by
  obtain ⟨o, ho, h⟩ := Except.exists_of_bind h
  obtain ⟨a, ha, rfl⟩ := exists_of_operand ho
  cases a with
  | token =>
    cases h
    exact ⟨_, ha, .token t⟩
  | _ => cases h

theorem replayedAt_of_child {u : Traversal}
    (h : child ⟨operator, Argument.operands l⟩ index = .ok u) :
    Argument.ReplayedAt l index u.argument := by
  obtain ⟨o, ho, h⟩ := Except.exists_of_bind h
  obtain ⟨a, ha, rfl⟩ := exists_of_operand ho
  cases a with
  | traversal code => exact ⟨_, ha, .child h⟩
  | _ => cases h

theorem replayedAt_of_optionToken {t : OptionToken}
    (h : optionToken ⟨operator, Argument.operands l⟩ = .ok t) :
    Argument.ReplayedAt l 0 t.argument := by
  obtain ⟨o, ho, h⟩ := Except.exists_of_bind h
  obtain ⟨a, ha, rfl⟩ := exists_of_operand ho
  rw [argument_operand] at h
  split at h
  case h_1 =>
    cases h
    exact ⟨_, ha, .token .otherwise⟩
  case h_2 =>
    split at h
    case h_1 v hv =>
      cases h
      exact ⟨a, ha, .value hv⟩
    case h_2 => cases h

/-! ## All arguments -/

theorem forall₂_take_succ {n : Nat} {a' : Argument} {m : List Argument}
    (ha : Argument.ReplayedAt l 0 a') (hm : List.Forall₂ (Argument.Replayed false) (l.tail.take n) m) :
    List.Forall₂ (Argument.Replayed false) (l.take (n + 1)) (a' :: m) := by
  obtain ⟨a, hget, ha⟩ := ha
  cases l with
  | nil => cases hget
  | cons b l =>
    cases hget
    exact .cons ha hm

theorem forall₂_take_one {a' : Argument} (ha : Argument.ReplayedAt l 0 a') :
    List.Forall₂ (Argument.Replayed false) (l.take 1) [a'] :=
  forall₂_take_succ ha .nil

theorem forall₂_take_two {a' b' : Argument} (ha : Argument.ReplayedAt l 0 a')
    (hb : Argument.ReplayedAt l 1 b') :
    List.Forall₂ (Argument.Replayed false) (l.take 2) [a', b'] :=
  forall₂_take_succ ha (forall₂_take_one hb.tail)

theorem forall₂_of_range {α : Type} {read : Nat → Except Error α} {record : α → Argument} {m : List α}
    (h : (List.range (Argument.operands l).length).mapM read = .ok m)
    (hread : ∀ index a, read index = .ok a → Argument.ReplayedAt l index (record a)) :
    List.Forall₂ (Argument.Replayed false) l (m.map record) := by
  obtain ⟨hlength, hall⟩ := List.forall₂_iff_get.1 (Except.forall₂_of_mapM h)
  rw [List.length_range, Argument.operands_eq, List.length_map] at hlength
  rw [List.forall₂_map_right_iff]
  apply List.forall₂_iff_get.2
  refine ⟨hlength, fun index hl hm => ?_⟩
  have hindex : read index = .ok m[index] := by
    simpa using hall index (by simpa [Argument.operands_eq] using hl) hm
  obtain ⟨a, ha, hreplayed⟩ := hread index _ hindex
  rw [List.getElem?_eq_getElem hl] at ha
  cases ha
  exact hreplayed

theorem forall₂_of_literals {vs : List Value}
    (h : literals ⟨operator, Argument.operands l⟩ = .ok vs) :
    List.Forall₂ (Argument.Replayed false) l (vs.map .literal) :=
  forall₂_of_range h fun _ _ => replayedAt_of_literal

theorem forall₂_of_strings {ss : List String}
    (h : strings ⟨operator, Argument.operands l⟩ = .ok ss) :
    List.Forall₂ (Argument.Replayed false) l (ss.map fun s => .literal (.string s)) :=
  forall₂_of_range h fun _ _ => replayedAt_of_string

theorem forall₂_of_children {us : List Traversal}
    (h : children ⟨operator, Argument.operands l⟩ = .ok us) :
    List.Forall₂ (Argument.Replayed false) l (us.map (·.argument)) :=
  forall₂_of_range h fun _ _ => replayedAt_of_child

theorem forall₂_of_names {ns : List Name} (h : names ⟨operator, Argument.operands l⟩ = .ok ns) :
    List.Forall₂ (Argument.Replayed true) l (ns.map (·.argument)) := by
  have hall := Except.forall₂_of_mapM h
  rw [Argument.operands_eq, List.forall₂_map_left_iff] at hall
  rw [List.forall₂_map_right_iff]
  apply hall.imp
  intro a n hn
  rw [argument_operand] at hn
  split at hn
  case h_1 name value =>
    cases hn
    exact .bound name value
  case h_2 text =>
    cases hn
    exact .name text
  case h_3 => cases hn

theorem eq_of_strategies {ss : List Strategy}
    (h : strategies ⟨operator, Argument.operands l⟩ = .ok ss) : l = ss.map .strategy := by
  have hall := Except.forall₂_of_mapM h
  rw [Argument.operands_eq, List.forall₂_map_left_iff] at hall
  rw [← List.forall₂_eq_eq_eq, List.forall₂_map_right_iff]
  apply hall.imp
  intro a s hs
  rw [argument_operand] at hs
  split at hs
  case h_1 =>
    cases hs
    rfl
  case h_2 => cases hs

/-! ## Instructions -/

/-- A pipeline instruction that is replayed is recorded again. -/
theorem rerecorded_of_step {t t' : Traversal}
    (h : step ⟨operator, Argument.operands l⟩ t = .ok t') :
    Instruction.Rerecorded ⟨operator, l⟩ t t' := by
  rw [step] at h
  dsimp only at h
  split at h
  -- V
  case h_1 =>
    obtain ⟨vs, hvs, h⟩ := Except.exists_of_bind h
    cases h
    exact ⟨_, rfl, forall₂_of_literals hvs⟩
  -- The operators that take labels or keys.
  case h_2 | h_3 | h_4 | h_5 | h_6 | h_9 | h_11 | h_28 =>
    obtain ⟨ns, hns, h⟩ := Except.exists_of_bind h
    cases h
    exact ⟨_, rfl, forall₂_of_names hns⟩
  -- The operators that look at no argument.
  case h_7 | h_8 | h_12 | h_13 | h_14 | h_15 | h_16 | h_19 | h_27 | h_29 | h_33 =>
    cases h
    exact ⟨[], rfl, .nil⟩
  -- has, property
  case h_10 | h_32 =>
    obtain ⟨key, hkey, h⟩ := Except.exists_of_bind h
    obtain ⟨v, hv, h⟩ := Except.exists_of_bind h
    cases h
    exact ⟨_, rfl, forall₂_take_two (replayedAt_of_string hkey) (replayedAt_of_literal hv)⟩
  -- is
  case h_17 =>
    obtain ⟨v, hv, h⟩ := Except.exists_of_bind h
    cases h
    exact ⟨_, rfl, forall₂_take_one (replayedAt_of_literal hv)⟩
  -- limit
  case h_18 =>
    obtain ⟨n, hn, h⟩ := Except.exists_of_bind h
    cases h
    exact ⟨_, rfl, forall₂_take_one (replayedAt_of_natural hn)⟩
  -- select
  case h_20 =>
    obtain ⟨token, htoken, h⟩ := Except.exists_of_bind h
    split at h
    case h_1 =>
      cases h
      exact ⟨_, rfl, forall₂_take_one (replayedAt_of_token htoken)⟩
    case h_2 => cases h
  -- filter, repeat
  case h_21 | h_23 =>
    obtain ⟨u, hu, h⟩ := Except.exists_of_bind h
    cases h
    exact ⟨_, rfl, forall₂_take_one (replayedAt_of_child hu)⟩
  -- and
  case h_22 =>
    obtain ⟨us, hus, h⟩ := Except.exists_of_bind h
    cases h
    exact ⟨_, rfl, forall₂_of_children hus⟩
  -- times
  case h_24 =>
    obtain ⟨n, hn, h⟩ := Except.exists_of_bind h
    obtain ⟨-, -, -, -, rfl⟩ := Traversal.exists_of_modifyLast h
    exact ⟨_, rfl, forall₂_take_one (replayedAt_of_natural hn)⟩
  -- choose
  case h_25 =>
    rw [Argument.operands_eq, List.length_map, ← Argument.operands_eq] at h
    split at h
    case h_1 hlength =>
      obtain ⟨u, hu, h⟩ := Except.exists_of_bind h
      cases h
      have hall := forall₂_take_one (replayedAt_of_child hu)
      rw [List.take_of_length_le hlength.le] at hall
      exact ⟨_, rfl, hall⟩
    case h_2 hlength =>
      obtain ⟨u, hu, h⟩ := Except.exists_of_bind h
      obtain ⟨v, hv, h⟩ := Except.exists_of_bind h
      obtain ⟨w, hw, h⟩ := Except.exists_of_bind h
      cases h
      have hall := forall₂_take_succ (replayedAt_of_child hu)
        (forall₂_take_two (replayedAt_of_child hv).tail (replayedAt_of_child hw).tail)
      rw [List.take_of_length_le hlength.le] at hall
      exact ⟨_, rfl, hall⟩
    case h_3 => cases h
  -- option
  case h_26 =>
    obtain ⟨token, htoken, h⟩ := Except.exists_of_bind h
    obtain ⟨u, hu, h⟩ := Except.exists_of_bind h
    obtain ⟨-, -, -, -, rfl⟩ := Traversal.exists_of_modifyLast h
    exact ⟨_, rfl, forall₂_take_two (replayedAt_of_optionToken htoken) (replayedAt_of_child hu)⟩
  -- by
  case h_30 =>
    obtain ⟨o, ho, h⟩ := Except.exists_of_bind h
    obtain ⟨a, ha, rfl⟩ := exists_of_operand ho
    rw [argument_operand] at h
    split at h
    case h_1 o =>
      obtain ⟨-, -, -, -, rfl⟩ := Traversal.exists_of_modifyLast h
      exact ⟨_, rfl, forall₂_take_one ⟨_, ha, .token (.order o)⟩⟩
    case h_2 =>
      obtain ⟨u, hu, h⟩ := Except.exists_of_bind h
      obtain ⟨-, -, -, -, rfl⟩ := Traversal.exists_of_modifyLast h
      exact ⟨_, rfl, forall₂_take_one (replayedAt_of_child hu)⟩
  -- addV
  case h_31 =>
    obtain ⟨text, htext, h⟩ := Except.exists_of_bind h
    cases h
    exact ⟨_, rfl, forall₂_take_one (replayedAt_of_string htext)⟩
  case h_34 => cases h

end Recall

end GraphTraversal
