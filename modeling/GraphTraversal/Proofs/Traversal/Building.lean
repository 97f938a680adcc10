import GraphTraversal.Proofs.Data.Except
import GraphTraversal.Proofs.Step.Tree
import GraphTraversal.Traversal.Clause

/-! # Built traversals

Builder calls append steps and change the last one.  They make no injected filters, and steps that write
and lambdas only if they are asked for, so a property that the other steps have passes to everything
they build.
-/

namespace GraphTraversal

mutual

def Clause.writes : Clause → Bool
  | .addVertex _ | .property .. | .drop => true
  | .filter child | .repeat child | .choose child | .option _ child | .byTraversal child =>
    Clause.anyWrites child
  | .and children => Clause.anyWritesOfEach children
  | .chooseIf test yes no =>
    Clause.anyWrites test || Clause.anyWrites yes || Clause.anyWrites no
  | .chooseLambda _ yes no => Clause.anyWrites yes || Clause.anyWrites no
  | .vertices _ | .adjacent .. | .outEdges _ | .inEdges _ | .tail | .head | .hasLabel _ | .has ..
  | .values _ | .valueMap | .label | .id | .identity | .count | .is _ | .limit _ | .unfold | .select _
  | .times _ | .groupCount | .project _ | .order | .byOrder _ => false

def Clause.anyWrites : List Clause → Bool
  | [] => false
  | c :: l => c.writes || Clause.anyWrites l

def Clause.anyWritesOfEach : List (List Clause) → Bool
  | [] => false
  | clauses :: l => Clause.anyWrites clauses || Clause.anyWritesOfEach l

end

mutual

def Clause.lambdas : Clause → List Lambda
  | .filter child | .repeat child | .choose child | .option _ child | .byTraversal child =>
    Clause.allLambdas child
  | .and children => Clause.allLambdasOfEach children
  | .chooseIf test yes no =>
    Clause.allLambdas test ++ (Clause.allLambdas yes ++ Clause.allLambdas no)
  | .chooseLambda test yes no => test :: (Clause.allLambdas yes ++ Clause.allLambdas no)
  | .addVertex _ | .property .. | .drop | .vertices _ | .adjacent .. | .outEdges _ | .inEdges _ | .tail
  | .head | .hasLabel _ | .has .. | .values _ | .valueMap | .label | .id | .identity | .count | .is _
  | .limit _ | .unfold | .select _ | .times _ | .groupCount | .project _ | .order | .byOrder _ => []

def Clause.allLambdas : List Clause → List Lambda
  | [] => []
  | c :: l => c.lambdas ++ Clause.allLambdas l

def Clause.allLambdasOfEach : List (List Clause) → List Lambda
  | [] => []
  | clauses :: l => Clause.allLambdas clauses ++ Clause.allLambdasOfEach l

end

/-- A call that changes the last step finds one, and the record grows by the call. -/
theorem Traversal.exists_of_modifyLast {t t' : Traversal} {operator : String}
    {arguments : List Argument} {f : Step → Except Error Step}
    (h : t.modifyLast operator arguments f = .ok t') :
    ∃ s s', t.pipeline.steps.getLast? = some s ∧ f s = .ok s' ∧
      t' = ⟨{ t.pipeline with steps := t.pipeline.steps.dropLast ++ [s'] },
        t.bytecode.addStep operator arguments⟩ := by
  rw [Traversal.modifyLast] at h
  split at h
  case h_1 => cases h
  case h_2 s hlast =>
    obtain ⟨s', hs, rfl⟩ := Except.exists_of_map h
    exact ⟨s, s', hlast, hs, rfl⟩

section Building

variable {writing : Bool} {L : Lambda → Prop} {P : Step → Prop}

/-! ## One builder call -/

theorem Pipeline.everywhere_nil (mode : Mode) : Pipeline.Everywhere P ⟨[], mode⟩ :=
  Pipeline.everywhere_iff.2 fun _ hs => by cases hs

theorem Traversal.push_everywhere {t : Traversal} (ht : t.pipeline.Everywhere P) {s : Step}
    (hs : s.Everywhere P) (operator : String) (arguments : List Argument) :
    (t.push s operator arguments).pipeline.Everywhere P := by
  rw [Pipeline.everywhere_iff] at ht ⊢
  intro x hx
  rcases List.mem_append.1 hx with hx | hx
  · exact ht x hx
  · rw [List.mem_singleton.1 hx]
    exact hs

theorem Traversal.modifyLast_everywhere {t t' : Traversal} (ht : t.pipeline.Everywhere P)
    {f : Step → Except Error Step}
    (hf : ∀ {s s'}, s.Everywhere P → f s = .ok s' → s'.Everywhere P) {operator : String}
    {arguments : List Argument} (h : t.modifyLast operator arguments f = .ok t') :
    t'.pipeline.Everywhere P := by
  rw [Pipeline.everywhere_iff] at ht ⊢
  obtain ⟨s, s', hlast, hs, rfl⟩ := Traversal.exists_of_modifyLast h
  intro x hx
  rcases List.mem_append.1 hx with hx | hx
  · exact ht x (List.dropLast_subset _ hx)
  · rw [List.mem_singleton.1 hx]
    exact hf (ht s (List.mem_of_getLast? hlast)) hs

/-- A key traversal joins the children of the step that takes it. -/
theorem Step.mem_children_modulate {s s' : Step} {modulator : Comparator}
    (h : s.modulate modulator = .ok s') {c : Pipeline} (hc : c ∈ s'.children) :
    c ∈ s.children ∨ modulator.child? = some c := by
  cases s with
  | groupCount ring =>
    cases modulator with
    | self order => cases h
    | «by» child =>
      cases h
      apply (List.mem_append.1 hc).imp_right
      intro hc
      rw [List.mem_singleton.1 hc]
      rfl
  | project names ring =>
    cases modulator with
    | self order => cases h
    | «by» child =>
      cases h
      apply (List.mem_append.1 hc).imp_right
      intro hc
      rw [List.mem_singleton.1 hc]
      rfl
  | order comparators =>
    cases h
    obtain ⟨x, hx, hxc⟩ := List.mem_filterMap.1 hc
    rcases List.mem_append.1 hx with hx | hx
    · exact .inl (List.mem_filterMap.2 ⟨x, hx, hxc⟩)
    · rw [List.mem_singleton.1 hx] at hxc
      exact .inr hxc
  | _ => cases h

theorem Decision.lambda?_addOption {d d' : Decision} {token : OptionToken} {branch : Pipeline}
    (h : d.addOption token branch = .ok d') : d'.lambda? = none := by
  cases d with
  | selector pick options fallback => cases token <;> cases fallback <;> cases h <;> rfl
  | _ => cases h

/-- A branch joins the children of the choice that takes it. -/
theorem Decision.mem_children_addOption {d d' : Decision} {token : OptionToken} {branch : Pipeline}
    (h : d.addOption token branch = .ok d') {c : Pipeline} (hc : c ∈ d'.children) :
    c ∈ d.children ∨ c = branch := by
  cases d with
  | selector pick options fallback =>
    cases token with
    | value v =>
      have hd' : d' = .selector pick (options ++ [(v, branch)]) fallback := by
        cases fallback <;> exact (Except.ok.inj h).symm
      subst hd'
      simp only [children, List.map_append, List.map_cons, List.map_nil, List.mem_append,
        List.mem_cons, List.not_mem_nil, or_false] at hc ⊢
      rcases hc with (hc | hc | hc) | hc
      · exact .inl (.inl (.inl hc))
      · exact .inl (.inl (.inr hc))
      · exact .inr hc
      · exact .inl (.inr hc)
    | otherwise =>
      cases fallback with
      | some child => cases h
      | none =>
        cases h
        simp only [children, Option.toList_some, Option.toList_none, List.mem_append, List.mem_cons,
          List.not_mem_nil, or_false] at hc ⊢
        exact hc
  | _ => cases h

section Modifying

variable (hP : HoldsOfBuilt writing L P)

include hP

theorem Step.modulate_everywhere {s s' : Step} (hs : s.Everywhere P) {modulator : Comparator}
    (hc : ∀ c, modulator.child? = some c → c.Everywhere P) (h : s.modulate modulator = .ok s') :
    s'.Everywhere P := by
  have hkind : s'.isInjected = false ∧ s'.isMutating = false ∧ s'.lambda? = none := by
    cases s with
    | groupCount | project | order =>
      cases modulator <;> cases h <;> exact ⟨rfl, rfl, rfl⟩
    | _ => cases h
  apply hP.everywhere_of_no_lambda hkind.1 hkind.2.1 hkind.2.2
  intro c hmem
  exact (Step.mem_children_modulate h hmem).elim (hs.2 c) (hc c)

theorem Step.setTimes_everywhere {s s' : Step} (hs : s.Everywhere P) {n : Nat}
    (h : s.setTimes n = .ok s') : s'.Everywhere P := by
  cases s with
  | «repeat» child times =>
    cases h
    exact hP.everywhere_of_no_lambda rfl rfl rfl hs.2
  | _ => cases h

theorem Step.addOption_everywhere {s s' : Step} (hs : s.Everywhere P) {token : OptionToken}
    {branch : Pipeline} (hb : branch.Everywhere P) (h : s.addOption token branch = .ok s') :
    s'.Everywhere P := by
  cases s with
  | choose decision phase =>
    obtain ⟨d', hd, rfl⟩ := Except.exists_of_map h
    refine hP.everywhere_of_no_lambda rfl rfl ?_ fun c hc => ?_
    · exact Decision.lambda?_addOption hd
    · rcases Decision.mem_children_addOption hd hc with hc | rfl
      · exact hs.2 c hc
      · exact hb
  | _ => cases h

end Modifying

/-! ## All builder calls -/

theorem Traversal.start_everywhere : Traversal.start.pipeline.Everywhere P :=
  Pipeline.everywhere_nil _

theorem Traversal.push_leaf_everywhere (hP : HoldsOfBuilt writing L P) {t : Traversal}
    (ht : t.pipeline.Everywhere P) {s : Step} (hi : s.isInjected = false)
    (hm : s.isMutating = false) (hl : s.lambda? = none) (hc : s.children = []) (operator : String)
    (arguments : List Argument) :
    (t.push s operator arguments).pipeline.Everywhere P := by
  refine Traversal.push_everywhere ht (hP.everywhere_of_no_lambda hi hm hl fun c h => ?_) operator
    arguments
  rw [hc] at h
  cases h

mutual

/-- A builder call adds nothing but steps with the property. -/
theorem Clause.extend_everywhere (hP : HoldsOfBuilt writing L P) (c : Clause)
    (hc : c.writes → writing) (hL : ∀ l ∈ c.lambdas, L l) {t t' : Traversal} (ht : t.pipeline.Everywhere P)
    (h : c.extend t = .ok t') : t'.pipeline.Everywhere P := by
  match c with
  | .addVertex _ | .property .. | .drop =>
    cases h
    refine Traversal.push_everywhere ht ?_ _ _
    exact ⟨hP.built rfl hc nofun, fun c hmem => by cases hmem⟩
  | .filter child =>
    obtain ⟨u, hu, rfl⟩ := Except.exists_of_map h
    have hchild := Clause.extendAll_everywhere hP child hc hL Traversal.start_everywhere hu
    exact Traversal.push_everywhere ht (hP.everywhere_of_no_lambda rfl rfl rfl (by simpa [Step.children])) _ _
  | .repeat child =>
    obtain ⟨u, hu, rfl⟩ := Except.exists_of_map h
    have hchild := Clause.extendAll_everywhere hP child hc hL Traversal.start_everywhere hu
    exact Traversal.push_everywhere ht (hP.everywhere_of_no_lambda rfl rfl rfl (by simpa [Step.children])) _ _
  | .choose pick =>
    obtain ⟨u, hu, rfl⟩ := Except.exists_of_map h
    have hchild := Clause.extendAll_everywhere hP pick hc hL Traversal.start_everywhere hu
    exact Traversal.push_everywhere ht
      (hP.everywhere_of_no_lambda rfl rfl rfl (by simpa [Step.children, Decision.children])) _ _
  | .and children =>
    obtain ⟨l, hl, rfl⟩ := Except.exists_of_map h
    have hchildren := Clause.buildEach_everywhere hP children hc hL hl
    refine Traversal.push_everywhere ht (hP.everywhere_of_no_lambda rfl rfl rfl ?_) _ _
    exact List.forall_mem_map.2 hchildren
  | .chooseIf test yes no =>
    obtain ⟨u, hu, h⟩ := Except.exists_of_bind h
    obtain ⟨v, hv, h⟩ := Except.exists_of_bind h
    obtain ⟨w, hw, h⟩ := Except.exists_of_bind h
    cases h
    simp only [Clause.writes, Bool.or_eq_true] at hc
    rw [Clause.lambdas, List.forall_mem_append, List.forall_mem_append] at hL
    have htest := Clause.extendAll_everywhere hP test (fun h => hc (.inl (.inl h))) hL.1
      Traversal.start_everywhere hu
    have hyes := Clause.extendAll_everywhere hP yes (fun h => hc (.inl (.inr h))) hL.2.1
      Traversal.start_everywhere hv
    have hno := Clause.extendAll_everywhere hP no (fun h => hc (.inr h)) hL.2.2
      Traversal.start_everywhere hw
    exact Traversal.push_everywhere ht
      (hP.everywhere_of_no_lambda rfl rfl rfl (by simp [Step.children, Decision.children, htest, hyes, hno])) _ _
  | .chooseLambda test yes no =>
    obtain ⟨v, hv, h⟩ := Except.exists_of_bind h
    obtain ⟨w, hw, h⟩ := Except.exists_of_bind h
    cases h
    simp only [Clause.writes, Bool.or_eq_true] at hc
    rw [Clause.lambdas, List.forall_mem_cons, List.forall_mem_append] at hL
    have hyes := Clause.extendAll_everywhere hP yes (fun h => hc (.inl h)) hL.2.1
      Traversal.start_everywhere hv
    have hno := Clause.extendAll_everywhere hP no (fun h => hc (.inr h)) hL.2.2
      Traversal.start_everywhere hw
    have htest : ∀ l ∈ (Step.choose (.lambda test v.pipeline w.pipeline) .unevaluated).lambda?, L l := by
      rintro _ ⟨⟩
      exact hL.1
    exact Traversal.push_everywhere ht
      (hP.everywhere rfl rfl htest (by simp [Step.children, Decision.children, hyes, hno])) _ _
  | .option token branch =>
    obtain ⟨u, hu, h⟩ := Except.exists_of_bind h
    have hbranch := Clause.extendAll_everywhere hP branch hc hL Traversal.start_everywhere hu
    exact Traversal.modifyLast_everywhere ht
      (fun hs => Step.addOption_everywhere hP hs hbranch) h
  | .byTraversal child =>
    obtain ⟨u, hu, h⟩ := Except.exists_of_bind h
    have hchild := Clause.extendAll_everywhere hP child hc hL Traversal.start_everywhere hu
    refine Traversal.modifyLast_everywhere ht (fun hs => Step.modulate_everywhere hP hs ?_) h
    rintro _ ⟨⟩
    exact hchild
  | .byOrder o =>
    refine Traversal.modifyLast_everywhere ht (fun hs => Step.modulate_everywhere hP hs ?_) h
    rintro _ ⟨⟩
  | .times n =>
    exact Traversal.modifyLast_everywhere ht (fun hs => Step.setTimes_everywhere hP hs) h
  | .vertices _ | .adjacent .. | .outEdges _ | .inEdges _ | .tail | .head | .hasLabel _ | .has ..
  | .values _ | .valueMap | .label | .id | .identity | .count | .is _ | .limit _ | .unfold | .select _
  | .groupCount | .project _ | .order =>
    cases h
    exact Traversal.push_leaf_everywhere hP ht rfl rfl rfl rfl _ _

theorem Clause.extendAll_everywhere (hP : HoldsOfBuilt writing L P) (l : List Clause)
    (hl : Clause.anyWrites l → writing) (hL : ∀ x ∈ Clause.allLambdas l, L x) {t t' : Traversal} (ht : t.pipeline.Everywhere P)
    (h : Clause.extendAll t l = .ok t') : t'.pipeline.Everywhere P := by
  match l with
  | [] =>
    cases h
    exact ht
  | c :: l =>
    obtain ⟨u, hu, h⟩ := Except.exists_of_bind h
    simp only [Clause.anyWrites, Bool.or_eq_true] at hl
    rw [Clause.allLambdas, List.forall_mem_append] at hL
    have hu' := Clause.extend_everywhere hP c (fun h => hl (.inl h)) hL.1 ht hu
    exact Clause.extendAll_everywhere hP l (fun h => hl (.inr h)) hL.2 hu' h

theorem Clause.buildEach_everywhere (hP : HoldsOfBuilt writing L P) (l : List (List Clause))
    (hl : Clause.anyWritesOfEach l → writing) (hL : ∀ x ∈ Clause.allLambdasOfEach l, L x) {ts : List Traversal}
    (h : Clause.buildEach l = .ok ts) : ∀ t ∈ ts, t.pipeline.Everywhere P := by
  match l with
  | [] =>
    cases h
    exact fun t ht => by cases ht
  | clauses :: l =>
    obtain ⟨u, hu, h⟩ := Except.exists_of_bind h
    obtain ⟨rest, hrest, h⟩ := Except.exists_of_bind h
    cases h
    simp only [Clause.anyWritesOfEach, Bool.or_eq_true] at hl
    rw [Clause.allLambdasOfEach, List.forall_mem_append] at hL
    refine List.forall_mem_cons.2 ⟨?_, ?_⟩
    · exact Clause.extendAll_everywhere hP clauses (fun h => hl (.inl h)) hL.1
        Traversal.start_everywhere hu
    · exact Clause.buildEach_everywhere hP l (fun h => hl (.inr h)) hL.2 hrest

end

end Building

end GraphTraversal
