import Mathlib.Data.List.Forall2
import GraphTraversal.Proofs.Traversal.Building
import GraphTraversal.Traversal.Replay

/-! # Replay undoes recording

Every builder call records one instruction, and this instruction, replayed on the traversal before the
call, makes the same call again.  So a traversal is rebuilt by its own record, its children by theirs,
and a source by its source instructions.
-/

namespace GraphTraversal

/-! ## What can be replayed -/

mutual

/-- Whether a clause can be replayed: no lambda decides, and every number is one that a literal holds. -/
def Clause.replayable : Clause → Bool
  | .chooseLambda .. => false
  | .limit n | .times n => n < Nat.pow 2 63
  | .filter child | .repeat child | .choose child | .option _ child | .byTraversal child =>
    Clause.allReplayable child
  | .and children => Clause.allReplayableOfEach children
  | .chooseIf test yes no =>
    Clause.allReplayable test && Clause.allReplayable yes && Clause.allReplayable no
  | .vertices _ | .adjacent .. | .outEdges _ | .inEdges _ | .tail | .head | .hasLabel _ | .has ..
  | .values _ | .valueMap | .label | .id | .identity | .count | .is _ | .unfold | .select _
  | .groupCount | .project _ | .order | .byOrder _ | .addVertex _ | .property .. | .drop => true

def Clause.allReplayable : List Clause → Bool
  | [] => true
  | c :: l => c.replayable && Clause.allReplayable l

def Clause.allReplayableOfEach : List (List Clause) → Bool
  | [] => true
  | clauses :: l => Clause.allReplayable clauses && Clause.allReplayableOfEach l

end

/-! ## Reading operands -/

def Argument.operand : Argument → Operand
  | .traversal code => ⟨.traversal code, code.replayChild⟩
  | a => ⟨a, .ok .start⟩

theorem Argument.operands_eq (l : List Argument) : Argument.operands l = l.map Argument.operand := by
  induction l with
  | nil => rfl
  | cons a l ih => cases a <;> rw [Argument.operands, ih] <;> rfl

theorem Value.ofSize_eq {n : Nat} (hn : n < Nat.pow 2 63) : Value.ofSize n = .integer (Int64.ofNat n) := by
  rw [Value.ofSize, Nat.min_eq_left (Nat.le_sub_one_of_lt hn)]

namespace Recall

variable {r : Recall} {index : Nat}

theorem operand_eq {o : Operand} (h : r.operands[index]? = some o)
    (hlambda : ∀ f, o.argument ≠ .lambda f) : r.operand index = .ok o := by
  rw [operand, h]
  obtain ⟨argument, child⟩ := o
  cases argument with
  | lambda f => exact absurd rfl (hlambda f)
  | _ => rfl

theorem literal_eq {v : Value} (h : r.operands[index]? = some (Argument.literal v).operand) :
    r.literal index = .ok v := by
  rw [literal, operand_eq h fun _ h => by cases h]
  rfl

theorem string_eq {s : String}
    (h : r.operands[index]? = some (Argument.literal (.string s)).operand) :
    r.string index = .ok s := by
  rw [string, literal_eq h]
  rfl

theorem natural_eq {n : Nat} (hn : n < Nat.pow 2 63)
    (h : r.operands[index]? = some (Argument.literal (.ofSize n)).operand) :
    r.natural index = .ok n := by
  have htoInt : (Int64.ofNat n).toInt = n := Int64.toInt_ofNat_of_lt hn
  rw [natural, literal_eq h, Value.ofSize_eq hn]
  change (if 0 ≤ (Int64.ofNat n).toInt then _ else _) = _
  rw [htoInt, if_pos (Int.natCast_nonneg n), Int.toNat_natCast]
  rfl

theorem child_eq {u : Traversal} (hu : u.bytecode.replayChild = .ok u)
    (h : r.operands[index]? = some u.argument.operand) : r.child index = .ok u := by
  rw [child, operand_eq h fun _ h => by cases h]
  exact hu

/-- If each operand is read as what it records, reading one after another reads them all. -/
theorem mapM_range {α : Type} {g : α → Argument} {l : List α}
    (hr : r.operands = Argument.operands (l.map g)) {f : Nat → Except Error α}
    (h : ∀ a ∈ l, ∀ index, r.operands[index]? = some (g a).operand → f index = .ok a) :
    (List.range r.operands.length).mapM f = .ok l := by
  rw [Argument.operands_eq, List.map_map] at hr
  refine Except.mapM_eq (List.forall₂_iff_get.2 ⟨?_, fun i _ hi => ?_⟩)
  · rw [List.length_range, hr, List.length_map]
  · have hget : r.operands[i]? = some (g l[i]).operand := by
      rw [hr, List.getElem?_map, List.getElem?_eq_getElem hi]
      rfl
    simpa using h _ (List.getElem_mem hi) i hget

variable (operator : String)

theorem literals_eq (l : List Value) :
    Recall.literals ⟨operator, Argument.operands (l.map .literal)⟩ = .ok l :=
  mapM_range rfl fun _ _ _ => literal_eq

theorem strings_eq (l : List String) :
    Recall.strings ⟨operator, Argument.operands (l.map fun s => .literal (.string s))⟩ = .ok l :=
  mapM_range rfl fun _ _ _ => string_eq

theorem children_eq {l : List Traversal} (hl : ∀ u ∈ l, u.bytecode.replayChild = .ok u) :
    Recall.children ⟨operator, Argument.operands (l.map (·.argument))⟩ = .ok l :=
  mapM_range rfl fun u hu _ => child_eq (hl u hu)

theorem names_eq (l : List Name) :
    Recall.names ⟨operator, Argument.operands (l.map (·.argument))⟩ = .ok l := by
  rw [Argument.operands_eq]
  apply Except.mapM_eq
  rw [List.forall₂_map_left_iff, List.forall₂_map_left_iff, List.forall₂_same]
  intro name _
  cases name <;> rfl

end Recall

/-! ## One builder call -/

namespace Traversal

/-- The traversal `t'` is `t` with more instructions, and replaying these on `t` makes it. -/
structure Records (t : Traversal) (l : List Instruction) (t' : Traversal) : Prop where
  bytecode : t'.bytecode = { t.bytecode with steps := t.bytecode.steps ++ l }
  replay : Instruction.replaySteps t l = .ok t'

namespace Records

variable {t t' t'' : Traversal}

theorem nil (t : Traversal) : t.Records [] t where
  bytecode := by
    obtain ⟨p, ⟨source, steps⟩⟩ := t
    exact congr_arg (Bytecode.mk source) (List.append_nil steps).symm
  replay := rfl

theorem of_step {operator : String} {arguments : List Argument}
    (hcode : t'.bytecode = t.bytecode.addStep operator arguments)
    (hstep : Recall.step ⟨operator, Argument.operands arguments⟩ t = .ok t') :
    t.Records [⟨operator, arguments⟩] t' where
  bytecode := hcode
  replay := by
    rw [Instruction.replaySteps, hstep]
    rfl

/-- A call whose arguments are read first. -/
theorem of_read {α : Type} (build : α → Traversal) {a : α} {operator : String}
    {arguments : List Argument} {read : Except Error α}
    (hcode : (build a).bytecode = t.bytecode.addStep operator arguments)
    (hstep : Recall.step ⟨operator, Argument.operands arguments⟩ t = (do return build (← read)))
    (hread : read = .ok a) : t.Records [⟨operator, arguments⟩] (build a) := by
  refine .of_step hcode (hstep.trans ?_)
  rw [hread]
  rfl

/-- A call that changes the last step, its arguments read first. -/
theorem of_modifyLast {α : Type} (build : α → Except Error Traversal) {a : α} {operator : String}
    {arguments : List Argument} {f : Step → Except Error Step} {read : Except Error α}
    (hbuild : build a = t.modifyLast operator arguments f)
    (hstep : Recall.step ⟨operator, Argument.operands arguments⟩ t = read >>= build)
    (hread : read = .ok a) (h : build a = .ok t') : t.Records [⟨operator, arguments⟩] t' := by
  obtain ⟨s, s', -, -, rfl⟩ := exists_of_modifyLast (hbuild ▸ h)
  refine .of_step rfl (hstep.trans ?_)
  rw [hread]
  exact h

theorem cons {i : Instruction} {l : List Instruction} (h : t.Records [i] t')
    (h' : t'.Records l t'') : t.Records (i :: l) t'' where
  bytecode := by
    rw [h'.bytecode, h.bytecode, List.append_assoc]
    rfl
  replay := by
    obtain ⟨operator, arguments⟩ := i
    obtain ⟨u, hstep, hu⟩ := Except.exists_of_bind h.replay
    cases hu
    rw [Instruction.replaySteps, hstep]
    exact h'.replay

/-- What is built from the start is rebuilt by its record. -/
theorem replayChild {l : List Instruction} {u : Traversal} (h : start.Records l u) :
    u.bytecode.replayChild = .ok u := by
  rw [h.bytecode]
  exact h.replay

end Records

end Traversal

/-! ## All builder calls -/

mutual

/-- Each builder call records an instruction that makes it again. -/
theorem Clause.records (c : Clause) (hc : c.replayable) {t t' : Traversal} (h : c.extend t = .ok t') :
    ∃ i, t.Records [i] t' := by
  -- By induction on the tree of clauses: what a call reads back for a child is the child rebuilt.
  match c with
  | .vertices ids =>
    cases h
    exact ⟨_, .of_read t.vertices rfl rfl (Recall.literals_eq _ ids)⟩
  | .adjacent d labels =>
    cases h
    cases d with
    | outward => exact ⟨_, .of_read (t.adjacent .outward) rfl rfl (Recall.names_eq _ labels)⟩
    | inward => exact ⟨_, .of_read (t.adjacent .inward) rfl rfl (Recall.names_eq _ labels)⟩
    | both => exact ⟨_, .of_read (t.adjacent .both) rfl rfl (Recall.names_eq _ labels)⟩
  | .outEdges labels =>
    cases h
    exact ⟨_, .of_read (t.incident .outward) rfl rfl (Recall.names_eq _ labels)⟩
  | .inEdges labels =>
    cases h
    exact ⟨_, .of_read (t.incident .inward) rfl rfl (Recall.names_eq _ labels)⟩
  | .hasLabel labels =>
    cases h
    exact ⟨_, .of_read t.hasLabel rfl rfl (Recall.names_eq _ labels)⟩
  | .values keys =>
    cases h
    exact ⟨_, .of_read t.values rfl rfl (Recall.names_eq _ keys)⟩
  | .project names =>
    cases h
    exact ⟨_, .of_read t.project rfl rfl (Recall.names_eq _ names)⟩
  | .tail | .head | .has .. | .valueMap | .label | .id | .identity | .count | .is _ | .unfold
  | .select _ | .groupCount | .order | .addVertex _ | .property .. | .drop =>
    cases h
    exact ⟨_, .of_step rfl rfl⟩
  | .limit n =>
    cases h
    exact ⟨_, .of_read t.limit rfl rfl (Recall.natural_eq (of_decide_eq_true hc) rfl)⟩
  | .times n =>
    have hn : n < Nat.pow 2 63 := of_decide_eq_true hc
    exact ⟨_, .of_modifyLast t.times rfl rfl (Recall.natural_eq hn rfl) h⟩
  | .filter child =>
    obtain ⟨u, hu, rfl⟩ := Except.exists_of_map h
    have hchild := Clause.replayChild_of_extendAll child hc hu
    exact ⟨_, .of_read t.filter rfl rfl (Recall.child_eq hchild rfl)⟩
  | .repeat child =>
    obtain ⟨u, hu, rfl⟩ := Except.exists_of_map h
    have hchild := Clause.replayChild_of_extendAll child hc hu
    exact ⟨_, .of_read t.repeating rfl rfl (Recall.child_eq hchild rfl)⟩
  | .choose pick =>
    obtain ⟨u, hu, rfl⟩ := Except.exists_of_map h
    have hpick := Clause.replayChild_of_extendAll pick hc hu
    exact ⟨_, .of_read t.choose rfl rfl (Recall.child_eq hpick rfl)⟩
  | .and children =>
    obtain ⟨l, hl, rfl⟩ := Except.exists_of_map h
    have hchildren := Clause.replayChild_of_buildEach children hc hl
    exact ⟨_, .of_read t.and rfl rfl (Recall.children_eq _ hchildren)⟩
  | .chooseIf test yes no =>
    obtain ⟨u, hu, h⟩ := Except.exists_of_bind h
    obtain ⟨v, hv, h⟩ := Except.exists_of_bind h
    obtain ⟨w, hw, h⟩ := Except.exists_of_bind h
    cases h
    simp only [Clause.replayable, Bool.and_eq_true] at hc
    have htest := Clause.replayChild_of_extendAll test hc.1.1 hu
    have hyes := Clause.replayChild_of_extendAll yes hc.1.2 hv
    have hno := Clause.replayChild_of_extendAll no hc.2 hw
    have hstep : Recall.step ⟨"choose", Argument.operands [u.argument, v.argument, w.argument]⟩ t =
        (do
          let u ← u.bytecode.replayChild
          let v ← v.bytecode.replayChild
          return t.chooseIf u v (← w.bytecode.replayChild)) := rfl
    rw [htest, hyes] at hstep
    exact ⟨_, .of_read (t.chooseIf u v) rfl hstep hno⟩
  | .option token branch =>
    obtain ⟨u, hu, h⟩ := Except.exists_of_bind h
    have hbranch := Clause.replayChild_of_extendAll branch hc hu
    cases token with
    | value v => exact ⟨_, .of_modifyLast (t.option (.value v)) rfl rfl (Recall.child_eq hbranch rfl) h⟩
    | otherwise =>
      exact ⟨_, .of_modifyLast (t.option .otherwise) rfl rfl (Recall.child_eq hbranch rfl) h⟩
  | .byTraversal child =>
    obtain ⟨u, hu, h⟩ := Except.exists_of_bind h
    have hchild := Clause.replayChild_of_extendAll child hc hu
    exact ⟨_, .of_modifyLast t.byTraversal rfl rfl (Recall.child_eq hchild rfl) h⟩
  | .byOrder o =>
    obtain ⟨s, s', -, -, rfl⟩ := Traversal.exists_of_modifyLast h
    exact ⟨_, .of_step rfl h⟩

/-- Builder calls record instructions that make them again, one after another. -/
theorem Clause.records_extendAll (l : List Clause) (hl : Clause.allReplayable l) {t t' : Traversal}
    (h : Clause.extendAll t l = .ok t') : ∃ code, t.Records code t' := by
  match l with
  | [] =>
    cases h
    exact ⟨[], .nil t⟩
  | c :: l =>
    obtain ⟨u, hu, h⟩ := Except.exists_of_bind h
    simp only [Clause.allReplayable, Bool.and_eq_true] at hl
    obtain ⟨i, hi⟩ := Clause.records c hl.1 hu
    obtain ⟨code, hcode⟩ := Clause.records_extendAll l hl.2 h
    exact ⟨i :: code, hi.cons hcode⟩

theorem Clause.replayChild_of_extendAll (l : List Clause) (hl : Clause.allReplayable l) {u : Traversal}
    (h : Clause.extendAll .start l = .ok u) : u.bytecode.replayChild = .ok u := by
  obtain ⟨code, hcode⟩ := Clause.records_extendAll l hl h
  exact hcode.replayChild

theorem Clause.replayChild_of_buildEach (l : List (List Clause)) (hl : Clause.allReplayableOfEach l)
    {us : List Traversal} (h : Clause.buildEach l = .ok us) : ∀ u ∈ us, u.bytecode.replayChild = .ok u := by
  match l with
  | [] =>
    cases h
    exact fun u hu => by cases hu
  | clauses :: l =>
    obtain ⟨u, hu, h⟩ := Except.exists_of_bind h
    obtain ⟨rest, hrest, h⟩ := Except.exists_of_bind h
    cases h
    simp only [Clause.allReplayableOfEach, Bool.and_eq_true] at hl
    refine List.forall_mem_cons.2 ⟨?_, ?_⟩
    · exact Clause.replayChild_of_extendAll clauses hl.1 hu
    · exact Clause.replayChild_of_buildEach l hl.2 hrest

end

/-! ## Sources -/

namespace Source

/-- A source that calls which succeed make from the standard one. -/
inductive Configured : Source → Prop where
  | standard : Configured .standard
  | withStrategy {src src' : Source} {s : Strategy} (h : Configured src)
    (ok : src.withStrategy s = .ok src') : Configured src'
  | withComputer {src src' : Source} {workers : Option Nat} (h : Configured src)
    (ok : src.withComputer workers = .ok src') : Configured src'
  | withoutStrategies {src : Source} (h : Configured src) (names : List String) :
    Configured (src.withoutStrategies names)

/-- The record of a source rebuilds it from the standard one, and has no instructions for steps. -/
structure IsRebuilt (src : Source) : Prop where
  steps : src.bytecode.steps = []
  replay : Source.standard.replay src.bytecode.source = .ok src

namespace IsRebuilt

variable {src : Source}

/-- A call that records an instruction which makes it again. -/
theorem addSource (h : src.IsRebuilt) (operator : String) (arguments : List Argument) {src' : Source}
    (hcode : src'.bytecode = src.bytecode.addSource operator arguments)
    (hstep : Recall.source ⟨operator, Argument.operands arguments⟩ src = .ok src') :
    src'.IsRebuilt where
  steps := by
    rw [hcode]
    exact h.steps
  replay := by
    have hreplay := h.replay
    rw [Source.replay] at hreplay
    rw [hcode, Source.replay]
    change List.foldlM _ _ (src.bytecode.source ++ [_]) = _
    rw [List.foldlM_append, hreplay]
    change Recall.source ⟨operator, Argument.operands arguments⟩ src >>= Except.ok = .ok src'
    rw [hstep]
    rfl

theorem withStrategy (h : src.IsRebuilt) {s : Strategy} {src' : Source}
    (ok : src.withStrategy s = .ok src') : src'.IsRebuilt := by
  refine h.addSource "withStrategies" [.strategy s] ?_ ?_
  · obtain ⟨set, -, rfl⟩ := Except.exists_of_map ok
    rfl
  · change src.withStrategy s >>= Except.ok = .ok src'
    rw [ok]
    rfl

theorem withoutStrategies (h : src.IsRebuilt) (names : List String) :
    (src.withoutStrategies names).IsRebuilt := by
  apply h.addSource "withoutStrategies" (names.map fun n => .literal (.string n)) rfl
  change Recall.strings _ >>= (fun names => Except.ok (src.withoutStrategies names)) = _
  rw [Recall.strings_eq]
  rfl

end IsRebuilt

theorem Configured.isRebuilt {src : Source} (h : src.Configured) : src.IsRebuilt := by
  induction h with
  | standard => exact ⟨rfl, rfl⟩
  | withStrategy _ ok ih => exact ih.withStrategy ok
  | withComputer _ ok ih => exact ih.withStrategy ok
  | withoutStrategies _ names ih => exact ih.withoutStrategies names

/-- The bytecode of a query, replayed on the standard source, gives the query again: the same bytecode,
the same steps at every depth, and the same strategies. -/
theorem replayQuery_build {src : Source} (hsrc : src.Configured) {clauses : List Clause}
    (hclauses : Clause.allReplayable clauses) {q : Query} (h : src.build clauses = .ok q) :
    Source.standard.replayQuery q.traversal.bytecode = .ok q := by
  obtain ⟨t, ht, rfl⟩ := Except.exists_of_map h
  obtain ⟨code, hcode⟩ := Clause.records_extendAll clauses hclauses ht
  have hsource := hsrc.isRebuilt
  have hbytecode : t.bytecode = ⟨src.bytecode.source, code⟩ := by
    rw [hcode.bytecode]
    change Bytecode.mk src.bytecode.source (src.bytecode.steps ++ code) = _
    rw [hsource.steps, List.nil_append]
  change Source.standard.replayQuery t.bytecode = .ok (src.query t)
  rw [hbytecode, replayQuery, hsource.replay]
  change Instruction.replaySteps src.start code >>= (fun t => Except.ok (src.query t)) = _
  rw [hcode.replay]
  rfl

/-- A lambda is recorded by its name and does not come back. -/
example (test : Lambda) :
    standard.replayQuery (standard.start.chooseLambda test .start .start).bytecode =
      .error (.replay "choose" (.lambdaArgument test.name)) := rfl

end Source

def Clause.survey : List Clause :=
  [.vertices [], .adjacent .outward [.bound "a" (.literal (.string "knows"))],
    .choose [.outEdges [], .count], .option (.value (.integer 2)) [.values [.literal "name"]],
    .option .otherwise [.label], .repeat [.filter [.and [[.head], [.identity]]]], .times 3,
    .groupCount, .byTraversal [.label], .unfold, .limit 10, .order, .byOrder .descending]

def Source.marked : Source where
  strategies := ⟨[.vertexProgram (some 4), .incidentToAdjacent, .readOnly]⟩
  bytecode.source := [⟨"withStrategies", [.strategy .readOnly]⟩,
    ⟨"withoutStrategies", [.literal (.string "IdentityRemovalStrategy")]⟩,
    ⟨"withStrategies", [.strategy (.vertexProgram (some 4))]⟩]

theorem Source.configured_marked : Source.marked.Configured := by
  have hchecked : ∃ src, standard.withStrategy .readOnly = .ok src ∧
      (src.withoutStrategies ["IdentityRemovalStrategy"]).withComputer (some 4) = .ok marked :=
    ⟨_, rfl, rfl⟩
  obtain ⟨src, hchecked, hmarked⟩ := hchecked
  exact .withComputer (.withoutStrategies (.withStrategy .standard hchecked) _) hmarked

/-- All sixteen instructions of such a query are replayed. -/
theorem Source.replayQuery_survey : ∃ q, Source.marked.build Clause.survey = .ok q ∧
    q.traversal.bytecode.size = 16 ∧ Source.standard.replayQuery q.traversal.bytecode = .ok q := by
  have hq : Source.marked.build Clause.survey = .ok _ := rfl
  exact ⟨_, hq, rfl, Source.replayQuery_build Source.configured_marked (by decide) hq⟩

end GraphTraversal
