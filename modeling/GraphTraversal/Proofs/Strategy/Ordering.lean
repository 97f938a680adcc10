import Mathlib.Data.Fintype.Order
import Mathlib.Data.List.Basic
import Mathlib.Logic.Relation
import GraphTraversal.Proofs.Data.Except
import GraphTraversal.Strategy.Set

/-! # The order of a set of strategies

Strategies are placed one after another, each as soon as nothing that still waits must run before it.
Either all are placed, and then they stand in an order that meets every demand, or those that are left
hold a cycle of demands.  Sets keep such an order under all calls.
-/

namespace GraphTraversal

namespace Strategy

/-- Why `s` must run before `t`. -/
inductive MustPrecede (s t : Strategy) : Prop where
  | category (h : s.category.rank < t.category.rank)
  | prior (h : s.name ∈ t.prior)
  | post (h : t.name ∈ s.post)

theorem precedes_iff {s t : Strategy} : s.precedes t ↔ s.MustPrecede t := by
  simp only [precedes, Bool.or_eq_true, decide_eq_true_eq, List.contains_iff_mem]
  constructor
  · rintro ((h | h) | h)
    · exact .category h
    · exact .prior h
    · exact .post h
  · rintro (h | h | h)
    · exact .inl (.inl h)
    · exact .inl (.inr h)
    · exact .inr h

/-- Both strategies stand in the list, and the first must run before the second. -/
def Demands (l : List Strategy) (s t : Strategy) : Prop := s ∈ l ∧ t ∈ l ∧ s.MustPrecede t

/-- Demands within the list lead from a strategy back to itself. -/
def Cyclic (l : List Strategy) : Prop := ∃ s, Relation.TransGen (Demands l) s s

def InOrder (l : List Strategy) : Prop :=
  ∀ i j (hi : i < l.length) (hj : j < l.length), l[i].MustPrecede l[j] → i < j

/-! ## Lists in order -/

namespace InOrder

variable {l : List Strategy}

theorem nil : InOrder [] := fun _ _ hi => absurd hi (Nat.not_lt_zero _)

theorem cons {s : Strategy} (hs : ∀ t ∈ s :: l, ¬t.MustPrecede s) (h : InOrder l) :
    InOrder (s :: l) := by
  intro i j hi hj hij
  cases j with
  | zero => exact absurd hij (hs _ (List.getElem_mem hi))
  | succ j =>
    cases i with
    | zero => exact Nat.succ_pos j
    | succ i =>
      exact Nat.succ_lt_succ (h i j (Nat.lt_of_succ_lt_succ hi) (Nat.lt_of_succ_lt_succ hj) hij)

theorem sublist {l' : List Strategy} (h : InOrder l) (hl : l'.Sublist l) : InOrder l' := by
  obtain ⟨f, hf⟩ := List.sublist_iff_exists_orderEmbedding_getElem?_eq.1 hl
  intro i j hi hj hij
  have hget {k : Nat} (hk : k < l'.length) : ∃ hfk : f k < l.length, l[f k] = l'[k] := by
    have hk' := hf k
    rw [List.getElem?_eq_getElem hk, eq_comm, List.getElem?_eq_some_iff] at hk'
    exact hk'
  obtain ⟨hfi, hi'⟩ := hget hi
  obtain ⟨hfj, hj'⟩ := hget hj
  rw [← hi', ← hj'] at hij
  exact f.lt_iff_lt.1 (h _ _ hfi hfj hij)

/-- Demands lead from place to place only forwards. -/
theorem lt_of_transGen (h : InOrder l) {s t : Strategy} (hst : Relation.TransGen (Demands l) s t) :
    ∀ i j (hi : i < l.length) (hj : j < l.length), l[i] = s → l[j] = t → i < j := by
  induction hst with
  | single hst =>
    rintro i j hi hj rfl rfl
    exact h i j hi hj hst.2.2
  | tail _ hbt ih =>
    rintro i j hi hj rfl rfl
    obtain ⟨k, hk, rfl⟩ := List.getElem_of_mem hbt.1
    exact (ih i k hi hk rfl rfl).trans (h k j hk hj hbt.2.2)

theorem not_cyclic (h : InOrder l) : ¬Cyclic l := by
  rintro ⟨s, hs⟩
  obtain ⟨_, hmem, -⟩ := Relation.TransGen.head'_iff.1 hs
  obtain ⟨i, hi, rfl⟩ := List.getElem_of_mem hmem.1
  exact Nat.lt_irrefl i (h.lt_of_transGen hs i i hi hi rfl rfl)

theorem rank_le (h : InOrder l) : (l.map (·.category.rank)).Pairwise (· ≤ ·) := by
  rw [List.pairwise_map, List.pairwise_iff_getElem]
  intro i j hi hj hij
  by_contra hlt
  exact absurd (h j i hj hi (.category (Nat.lt_of_not_le hlt))) (Nat.lt_asymm hij)

end InOrder

/-! ## Cycles -/

section Cycles

variable {α : Type} {r : α → α → Prop} {l : List α}

/-- Where everything has something before it, each element has a cycle before it. -/
theorem exists_cycle_before (h : ∀ t ∈ l, ∃ s ∈ l, r s t) {x : α} (hx : x ∈ l) :
    ∃ s, Relation.TransGen r s s ∧ Relation.ReflTransGen r s x := by
  by_contra! hnone
  let before := { s // s ∈ l ∧ Relation.ReflTransGen r s x }
  let q (s t : before) : Prop := r s.1 t.1
  have : Finite before := (l.finite_toSet.subset fun s hs => hs.1).to_subtype
  have : Std.Irrefl (Relation.TransGen q) :=
    ⟨fun s hs => hnone s.1 (hs.lift Subtype.val fun _ _ h => h) s.2.2⟩
  have hwf : WellFounded (Relation.TransGen q) := Finite.wellFounded_of_trans_of_irrefl _
  obtain ⟨⟨t, ht, htx⟩, -, hmin⟩ := hwf.has_min Set.univ ⟨⟨x, hx, .refl⟩, trivial⟩
  obtain ⟨s, hs, hst⟩ := h t ht
  exact hmin ⟨s, hs, .head hst htx⟩ trivial (.single hst)

/-- Where everything has something after it, each element has a cycle after it. -/
theorem exists_cycle_after (h : ∀ s ∈ l, ∃ t ∈ l, r s t) {x : α} (hx : x ∈ l) :
    ∃ s, Relation.TransGen r s s ∧ Relation.ReflTransGen r x s := by
  obtain ⟨s, hcycle, hreach⟩ := exists_cycle_before (r := Function.swap r) h hx
  exact ⟨s, Relation.transGen_swap.1 hcycle, Relation.reflTransGen_swap.1 hreach⟩

end Cycles

theorem cyclic_of_blocked {l stuck : List Strategy} (hne : stuck ≠ []) (hsub : stuck ⊆ l)
    (hblocked : ∀ t ∈ stuck, ∃ s ∈ stuck, s.MustPrecede t) : Cyclic l := by
  obtain ⟨t, ht⟩ := List.exists_mem_of_ne_nil stuck hne
  obtain ⟨s, hs, -⟩ := exists_cycle_before (r := Demands l) (fun t ht => by
    obtain ⟨s, hs, hst⟩ := hblocked t ht
    exact ⟨s, hs, hsub hs, hsub ht, hst⟩) ht
  exact ⟨s, hs⟩

/-! ## Placing -/

/-- Nothing that waits must run before `t`. -/
def Ready (waiting : List Strategy) (t : Strategy) : Prop := ∀ s ∈ waiting, ¬s.MustPrecede t

theorem isReady_iff {waiting : List Strategy} {t : Strategy} :
    isReady waiting t ↔ Ready waiting t := by
  simp [isReady, Ready, ← precedes_iff]

/-- How the waiting strategies come to be placed: always the first that is ready, until none is. -/
inductive Placed : List Strategy → List Strategy → List Strategy → Prop where
  | stuck {waiting : List Strategy} (h : ∀ s ∈ waiting, ¬Ready waiting s) : Placed waiting [] waiting
  | place {before after placed stuck : List Strategy} {s : Strategy}
    (ready : Ready (before ++ s :: after) s)
    (first : ∀ t ∈ before, ¬Ready (before ++ s :: after) t)
    (rest : Placed (before ++ after) placed stuck) :
    Placed (before ++ s :: after) (s :: placed) stuck

end Strategy

theorem takeFirst?_eq_none {α : Type} {p : α → Bool} {l : List α} (h : takeFirst? p l = none) :
    ∀ x ∈ l, p x = false := by
  induction l with
  | nil =>
    intro x hx
    cases hx
  | cons y l ih =>
    rw [takeFirst?] at h
    split at h
    · cases h
    · rename_i hy
      exact List.forall_mem_cons.2 ⟨by simpa using hy, ih (Option.map_eq_none_iff.1 h)⟩

theorem takeFirst?_eq_some {α : Type} {p : α → Bool} {l rest : List α} {x : α}
    (h : takeFirst? p l = some (x, rest)) :
    ∃ before after, l = before ++ x :: after ∧ rest = before ++ after ∧ p x ∧
      ∀ y ∈ before, p y = false := by
  induction l generalizing rest with
  | nil => cases h
  | cons y l ih =>
    rw [takeFirst?] at h
    split at h
    · rename_i hy
      cases h
      exact ⟨[], l, rfl, rfl, hy, fun _ hz => by cases hz⟩
    · rename_i hy
      obtain ⟨⟨x', rest'⟩, htake, heq⟩ := Option.map_eq_some_iff.1 h
      cases heq
      obtain ⟨before, after, rfl, rfl, hx, hbefore⟩ := ih htake
      exact ⟨y :: before, after, rfl, rfl, hx, List.forall_mem_cons.2 ⟨by simpa using hy, hbefore⟩⟩

namespace Strategy

theorem placeReady_placed {n : Nat} {waiting : List Strategy} (hn : waiting.length ≤ n) :
    Placed waiting (placeReady n waiting).1 (placeReady n waiting).2 := by
  induction n generalizing waiting with
  | zero =>
    rw [List.eq_nil_of_length_eq_zero (Nat.le_zero.1 hn)]
    exact .stuck fun s hs => by cases hs
  | succ n ih =>
    rw [placeReady]
    cases htake : takeFirst? (isReady waiting) waiting with
    | none =>
      refine .stuck fun s hs hready => ?_
      have := takeFirst?_eq_none htake s hs
      rw [isReady_iff.2 hready] at this
      cases this
    | some taken =>
      obtain ⟨s, rest⟩ := taken
      obtain ⟨before, after, rfl, rfl, hs, hbefore⟩ := takeFirst?_eq_some htake
      refine .place (isReady_iff.1 hs) (fun t ht hready => ?_) (ih ?_)
      · have := hbefore t ht
        rw [isReady_iff.2 hready] at this
        cases this
      · simp only [List.length_append, List.length_cons] at hn ⊢
        omega

namespace Placed

variable {waiting placed stuck : List Strategy} (h : Placed waiting placed stuck)

include h

theorem perm : (placed ++ stuck).Perm waiting := by
  induction h with
  | stuck => exact .refl _
  | place _ _ _ ih => exact (ih.cons _).trans List.perm_middle.symm

theorem inOrder : InOrder placed := by
  induction h with
  | stuck => exact .nil
  | @place before after placed stuck s ready _ rest ih =>
    refine .cons (fun t ht => ready t ?_) ih
    have hsub : placed ⊆ before ++ after := fun x hx => rest.perm.subset (List.mem_append_left _ hx)
    rcases List.mem_cons.1 ht with rfl | ht
    · simp
    · have := hsub ht
      simp only [List.mem_append, List.mem_cons] at this ⊢
      tauto

/-- Each strategy that is left waits for another that is left. -/
theorem blocked : ∀ t ∈ stuck, ∃ s ∈ stuck, s.MustPrecede t := by
  induction h with
  | stuck h =>
    intro t ht
    simpa [Ready] using h t ht
  | place _ _ _ ih => exact ih

theorem cyclic (hstuck : stuck ≠ []) : Cyclic waiting :=
  cyclic_of_blocked hstuck (fun _ hs => h.perm.subset (List.mem_append_right _ hs)) h.blocked

end Placed

/-- If all are placed, no demands run in a circle. -/
theorem Placed.not_cyclic {waiting placed : List Strategy} (h : Placed waiting placed []) :
    ¬Cyclic waiting := by
  have hsub : waiting ⊆ placed := by simpa using h.perm.symm.subset
  rintro ⟨s, hs⟩
  exact h.inOrder.not_cyclic ⟨s, hs.lift id fun _ _ hd => ⟨hsub hd.1, hsub hd.2.1, hd.2.2⟩⟩

/-! ## Arranging -/

theorem placed_of_arrange {l l' : List Strategy} (h : arrange l = .ok l') : Placed l l' [] := by
  have hplaced := placeReady_placed (le_refl l.length)
  rw [arrange] at h
  split at h
  · rename_i heq
    cases h
    rwa [heq] at hplaced
  · cases h

theorem stuck_of_arrange {l : List Strategy} {e : Error} (h : arrange l = .error e) :
    ∃ placed stuck, Placed l placed stuck ∧ stuck ≠ [] ∧
      e = .strategyCycle ((dropSinks stuck.length stuck).map (·.name)) := by
  have hplaced := placeReady_placed (le_refl l.length)
  rw [arrange] at h
  split at h
  · cases h
  · rename_i placed stuck hne heq
    cases h
    rw [heq] at hplaced
    exact ⟨placed, stuck, hplaced, hne, rfl⟩

/-- Arranging fails exactly for a cycle of demands, and then says so. -/
theorem arrange_refuses_iff {l : List Strategy} :
    (∃ names, arrange l = .error (.strategyCycle names)) ↔ Cyclic l := by
  cases h : arrange l with
  | ok l' => simp [(placed_of_arrange h).not_cyclic]
  | error e =>
    obtain ⟨placed, stuck, hplaced, hne, rfl⟩ := stuck_of_arrange h
    simp [hplaced.cyclic hne]

theorem arrange_ok_of_not_cyclic {l : List Strategy} (h : ¬Cyclic l) :
    ∃ l', arrange l = .ok l' ∧ l'.Perm l := by
  cases harrange : arrange l with
  | ok l' => exact ⟨l', rfl, by simpa using (placed_of_arrange harrange).perm⟩
  | error e =>
    obtain ⟨placed, stuck, hplaced, hne, -⟩ := stuck_of_arrange harrange
    exact absurd (hplaced.cyclic hne) h

end Strategy

/-! ## Sets -/

namespace StrategySet

/-- The strategies that stand in the set once `s` has joined, in order of registration. -/
def candidates (set : StrategySet) (s : Strategy) : List Strategy :=
  set.members.filter (fun t => t.name ≠ s.name) ++ [s]

inductive Call where
  | add (s : Strategy)
  | remove (name : String)

def Call.added? : Call → Option Strategy
  | .add s => some s
  | .remove _ => none

/-- The set after a call; a strategy that is refused leaves it as it was. -/
def Call.perform (set : StrategySet) : Call → StrategySet
  | .add s => (set.add s).toOption.getD set
  | .remove name => set.remove name

def performAll (calls : List Call) (set : StrategySet) : StrategySet := calls.foldl Call.perform set

/-- No two strategies of one name, and each after those that must run before it. -/
structure Valid (set : StrategySet) : Prop where
  names : set.names.Nodup
  inOrder : Strategy.InOrder set.members

theorem add_eq (set : StrategySet) (s : Strategy) :
    set.add s = (arrange (set.candidates s)).map (⟨·⟩) :=
  rfl

theorem placed_of_add {set set' : StrategySet} {s : Strategy} (h : set.add s = .ok set') :
    Strategy.Placed (set.candidates s) set'.members [] := by
  rw [add_eq] at h
  obtain ⟨l, hl, rfl⟩ := Except.exists_of_map h
  exact Strategy.placed_of_arrange hl

theorem perm_of_add {set set' : StrategySet} {s : Strategy} (h : set.add s = .ok set') :
    set'.members.Perm (set.candidates s) := by
  simpa using (placed_of_add h).perm

/-- A set refuses a strategy exactly if the demands would run in a circle. -/
theorem add_refuses_iff {set : StrategySet} {s : Strategy} :
    (∃ names, set.add s = .error (.strategyCycle names)) ↔ Strategy.Cyclic (set.candidates s) := by
  rw [← Strategy.arrange_refuses_iff, add_eq]
  cases arrange (set.candidates s) <;> simp [Except.map]

theorem add_ok_of_not_cyclic {set : StrategySet} {s : Strategy}
    (h : ¬Strategy.Cyclic (set.candidates s)) :
    ∃ set', set.add s = .ok set' ∧ set'.members.Perm (set.candidates s) := by
  obtain ⟨l, hl, hperm⟩ := Strategy.arrange_ok_of_not_cyclic h
  exact ⟨⟨l⟩, by rw [add_eq, hl]; rfl, hperm⟩

theorem Call.perform_refused {set : StrategySet} {s : Strategy}
    (h : Strategy.Cyclic (set.candidates s)) : (Call.add s).perform set = set := by
  obtain ⟨names, hrefused⟩ := add_refuses_iff.2 h
  rw [perform, hrefused]
  rfl

namespace Valid

variable {set : StrategySet}

theorem empty : StrategySet.empty.Valid := ⟨.nil, .nil⟩

theorem names_candidates (h : set.Valid) (s : Strategy) :
    ((set.candidates s).map (·.name)).Nodup := by
  rw [candidates, List.map_append, List.nodup_append]
  refine ⟨h.names.sublist (List.filter_sublist.map _), List.nodup_singleton _, ?_⟩
  rintro a ha b hb rfl
  obtain ⟨t, ht, rfl⟩ := List.mem_map.1 ha
  have hne : t.name ≠ s.name := by simpa using (List.mem_filter.1 ht).2
  exact hne (List.mem_singleton.1 hb)

theorem add (h : set.Valid) {s : Strategy} {set' : StrategySet} (ok : set.add s = .ok set') :
    set'.Valid where
  names := ((perm_of_add ok).map Strategy.name).nodup_iff.2 (h.names_candidates s)
  inOrder := (placed_of_add ok).inOrder

theorem remove (h : set.Valid) (name : String) : (set.remove name).Valid :=
  ⟨h.names.sublist (List.filter_sublist.map _), h.inOrder.sublist List.filter_sublist⟩

theorem perform (h : set.Valid) (c : Call) : (c.perform set).Valid := by
  cases c with
  | add s =>
    rw [Call.perform]
    cases ok : set.add s with
    | ok set' => exact h.add ok
    | error e => exact h
  | remove name => exact h.remove name

theorem performAll (h : set.Valid) (calls : List Call) : (performAll calls set).Valid := by
  induction calls generalizing set with
  | nil => exact h
  | cons c calls ih => exact ih (h.perform c)

/-- The standard set is what adding its strategies to the empty one makes. -/
theorem standard : StrategySet.standard.Valid :=
  empty.performAll [.add .identityRemoval, .add .incidentToAdjacent]

end Valid

theorem valid_performAll {init : StrategySet} (hinit : init = .empty ∨ init = .standard)
    (calls : List Call) : (performAll calls init).Valid := by
  rcases hinit with rfl | rfl
  · exact Valid.empty.performAll calls
  · exact Valid.standard.performAll calls

/-- The set that a call leaves has only strategies that were there or that the call adds. -/
theorem Call.mem_perform {set : StrategySet} {c : Call} {s : Strategy}
    (h : s ∈ (c.perform set).members) : s ∈ set.members ∨ c.added? = some s := by
  cases c with
  | add t =>
    rw [perform] at h
    cases ok : set.add t with
    | ok set' =>
      rw [ok] at h
      rcases List.mem_append.1 ((perm_of_add ok).subset h) with h | h
      · exact .inl (List.mem_of_mem_filter h)
      · exact .inr (congr_arg some (List.mem_singleton.1 h).symm)
    | error e =>
      rw [ok] at h
      exact .inl h
  | remove name => exact .inl (List.mem_of_mem_filter h)

theorem mem_performAll {calls : List Call} {set : StrategySet} {s : Strategy}
    (h : s ∈ (performAll calls set).members) : s ∈ set.members ∨ ∃ c ∈ calls, c.added? = some s := by
  induction calls generalizing set with
  | nil => exact .inl h
  | cons c calls ih =>
    rcases ih h with h | ⟨c', hc', hs⟩
    · exact (Call.mem_perform h).imp_right fun h => ⟨c, List.mem_cons_self, h⟩
    · exact .inr ⟨c', List.mem_cons_of_mem _ hc', hs⟩

/-- After any calls the names are unique, categories do not decrease, and a strategy stands after those
it asks for and before those that it has to precede.  The next one is refused exactly if the demands
would run in a circle, and then nothing changes; else it joins the others. -/
theorem performAll_ordered {init : StrategySet} (hinit : init = .empty ∨ init = .standard)
    (calls : List Call) :
    let set := performAll calls init
    set.names.Nodup ∧ (set.members.map (·.category.rank)).Pairwise (· ≤ ·) ∧
      (∀ i j (hi : i < set.members.length) (hj : j < set.members.length),
        set.members[i].name ∈ set.members[j].prior ∨ set.members[j].name ∈ set.members[i].post →
          i < j) ∧
      ∀ s, ((∃ names, set.add s = .error (.strategyCycle names)) ↔
          Strategy.Cyclic (set.candidates s)) ∧
        (Strategy.Cyclic (set.candidates s) → (Call.add s).perform set = set) ∧
        (¬Strategy.Cyclic (set.candidates s) →
          ∃ set', set.add s = .ok set' ∧ set'.members.Perm (set.candidates s)) := by
  intro set
  have hvalid : set.Valid := valid_performAll hinit calls
  refine ⟨hvalid.names, hvalid.inOrder.rank_le, fun i j hi hj h => ?_, fun s => ?_⟩
  · exact hvalid.inOrder i j hi hj (h.elim .prior .post)
  · exact ⟨add_refuses_iff, Call.perform_refused, add_ok_of_not_cyclic⟩

end StrategySet

def Strategy.awaiting (name other : String) : Strategy :=
  .audit name .decoration [other] [] [] none

/-- Of two strategies that ask for each other the first may come in, as long as the other is not there,
and the second is refused. -/
theorem StrategySet.mutual_demands_refused :
    let set := performAll [.add (.awaiting "A" "B"), .remove "IdentityRemovalStrategy"] .standard
    (StrategySet.standard = .empty ∨ StrategySet.standard = .standard) ∧
      set.names = ["A", "IncidentToAdjacentStrategy"] ∧
      set.add (.awaiting "B" "A") = .error (.strategyCycle ["A", "B"]) ∧
      Strategy.Cyclic (set.candidates (.awaiting "B" "A")) ∧
      (Call.add (.awaiting "B" "A")).perform set = set := by
  obtain ⟨-, -, -, hadd⟩ := performAll_ordered (.inr rfl)
    [.add (.awaiting "A" "B"), .remove "IdentityRemovalStrategy"]
  have hcyclic := (hadd (.awaiting "B" "A")).1.1 ⟨["A", "B"], rfl⟩
  exact ⟨.inr rfl, rfl, rfl, hcyclic, (hadd _).2.1 hcyclic⟩

end GraphTraversal
