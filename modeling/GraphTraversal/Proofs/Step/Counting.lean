import Mathlib.Algebra.GroupWithZero.Nat
import Mathlib.Data.List.Nodup
import GraphTraversal.Proofs.Step.Keys

/-! # Counting keys

A barrier that counts searches the counts it has for the key of each input, adds one to the count it
finds, and appends a new count otherwise.  So what it holds after some inputs is a tally of their keys:
every key once, in the order of first occurrence, with the number of its occurrences.
-/

namespace GraphTraversal

/-! ## Tallies -/

/-- Counts of keys: the keys in order of first occurrence, each with the number of its occurrences. -/
structure Tally (keys : List Value) (counts : List (Value × Nat)) : Prop where
  inOrder : (counts.map (·.1)).Pairwise fun k k' => keys.idxOf k < keys.idxOf k'
  mem_iff : ∀ {k n}, (k, n) ∈ counts ↔ 0 < n ∧ keys.count k = n
  total : (counts.map (·.2)).sum = keys.length

theorem countKey_of_notMem {k : Value} {counts : List (Value × Nat)}
    (h : k ∉ counts.map (·.1)) : countKey k counts = counts ++ [(k, 1)] := by
  induction counts with
  | nil => rfl
  | cons c counts ih =>
    rw [List.map_cons, List.mem_cons, not_or] at h
    rw [countKey, if_neg (Ne.symm h.1), ih h.2, List.cons_append]

theorem countKey_append {k : Value} {before : List (Value × Nat)} (h : k ∉ before.map (·.1)) (n : Nat)
    (after : List (Value × Nat)) :
    countKey k (before ++ (k, n) :: after) = before ++ (k, n + 1) :: after := by
  induction before with
  | nil => exact if_pos rfl
  | cons c before ih =>
    rw [List.map_cons, List.mem_cons, not_or] at h
    rw [List.cons_append, countKey, if_neg (Ne.symm h.1), ih h.2, List.cons_append]

namespace Tally

variable {keys : List Value} {counts : List (Value × Nat)} {k : Value}

theorem nil : Tally [] [] where
  inOrder := .nil
  mem_iff {k n} := by simp; omega
  total := rfl

theorem nodup (h : Tally keys counts) : (counts.map (·.1)).Nodup :=
  h.inOrder.imp fun hlt heq => (heq ▸ hlt).false

theorem mem_keys_iff (h : Tally keys counts) : k ∈ counts.map (·.1) ↔ k ∈ keys := by
  constructor
  · intro hk
    obtain ⟨⟨k, n⟩, hn, rfl⟩ := List.mem_map.1 hk
    obtain ⟨hpos, hcount⟩ := h.mem_iff.1 hn
    exact List.count_pos_iff.1 (hcount ▸ hpos)
  · intro hk
    exact List.mem_map.2 ⟨_, h.mem_iff.2 ⟨List.count_pos_iff.2 hk, rfl⟩, rfl⟩

/-- An occurrence at the end comes after all first occurrences. -/
theorem inOrder_append (h : Tally keys counts) (k : Value) :
    (counts.map (·.1)).Pairwise fun a b => (keys ++ [k]).idxOf a < (keys ++ [k]).idxOf b := by
  refine h.inOrder.imp_of_mem fun ha hb hlt => ?_
  rwa [List.idxOf_append_of_mem (h.mem_keys_iff.1 ha), List.idxOf_append_of_mem (h.mem_keys_iff.1 hb)]

theorem new (h : Tally keys counts) (hk : k ∉ keys) : Tally (keys ++ [k]) (counts ++ [(k, 1)]) where
  inOrder := by
    rw [List.map_append, List.pairwise_append]
    refine ⟨h.inOrder_append k, List.pairwise_singleton _ _, fun a ha b hb => ?_⟩
    obtain rfl := List.mem_singleton.1 hb
    have ha := h.mem_keys_iff.1 ha
    rw [List.idxOf_append_of_mem ha, List.idxOf_append_of_notMem hk]
    exact (List.idxOf_lt_length_of_mem ha).trans_le (Nat.le_add_right _ _)
  mem_iff {a n} := by
    rw [List.mem_append, h.mem_iff, List.count_append, List.mem_singleton, Prod.mk.injEq]
    by_cases ha : a = k
    · subst ha
      simp [List.count_eq_zero_of_not_mem hk]
      omega
    · simp [ha, Ne.symm ha]
  total := by simp [h.total]

theorem again (h : Tally keys counts) (hk : k ∈ keys) : Tally (keys ++ [k]) (countKey k counts) := by
  obtain ⟨before, after, hcounts⟩ :=
    List.append_of_mem (h.mem_iff.2 ⟨List.count_pos_iff.2 hk, rfl⟩)
  have hnodup := h.nodup
  rw [hcounts, List.map_append, List.map_cons, List.nodup_middle, List.nodup_cons,
    List.mem_append, not_or] at hnodup
  obtain ⟨⟨hbefore, hafter⟩, -⟩ := hnodup
  have hcounted : countKey k counts = before ++ (k, keys.count k + 1) :: after := by
    conv_lhs => rw [hcounts]
    exact countKey_append hbefore _ _
  rw [hcounted]
  constructor
  · have horder := h.inOrder_append k
    rw [hcounts, List.map_append, List.map_cons] at horder
    rwa [List.map_append, List.map_cons]
  · intro a n
    have hother : a ≠ k → ((a, n) ∈ before ++ (k, keys.count k + 1) :: after ↔ (a, n) ∈ counts) := by
      intro ha
      simp [hcounts, ha]
    by_cases ha : a = k
    · subst ha
      have hnone (l : List (Value × Nat)) (hl : a ∉ l.map (·.1)) : (a, n) ∉ l :=
        fun hn => hl (List.mem_map_of_mem hn)
      simp [hnone before hbefore, hnone after hafter]
      omega
    · rw [hother ha, h.mem_iff, List.count_append]
      simp [Ne.symm ha]
  · have htotal := h.total
    rw [hcounts] at htotal
    simp only [List.map_append, List.map_cons, List.sum_append, List.sum_cons, List.length_append,
      List.length_singleton] at htotal ⊢
    omega

theorem counted (h : Tally keys counts) (k : Value) : Tally (keys ++ [k]) (countKey k counts) := by
  by_cases hk : k ∈ keys
  · exact h.again hk
  · rw [countKey_of_notMem (mt h.mem_keys_iff.1 hk)]
    exact h.new hk

/-- Counting keeps a tally; an input without a key makes no difference. -/
theorem countedAll {seen : List Value} (h : Tally seen counts) (found : List (Option Value)) :
    Tally (seen ++ found.filterMap id) (countKeys counts found) := by
  induction found generalizing seen counts with
  | nil => rwa [List.filterMap_nil, List.append_nil]
  | cons key found ih =>
    cases key with
    | none => exact ih h
    | some k =>
      have hcounted := ih (h.counted k)
      rwa [List.append_assoc] at hcounted

end Tally

/-! ## Counts of inputs -/

/-- The key of an input, worked out for it alone: what the first pipeline yields first, if it yields
anything, or the input itself if there is no pipeline. -/
def Ring.evaluateKey (g : Graph) (r : Ring Pipeline) (v : Value) : Except Error (Option Value) :=
  match r.items with
  | [] => .ok (some v)
  | p :: _ => (p.first p.machine v g).result

theorem Ring.groupKey_eq_evaluateKey {g : Graph} {r : Ring Pipeline} (hr : ∀ p ∈ r.items, p.ReadOnly)
    (v : Value) : r.groupKey g v = r.evaluateKey g v := by
  obtain ⟨items, cursor⟩ := r
  cases items with
  | nil => rfl
  | cons p items =>
    have hfirst := (p.first_eq Step.machine_layered (hr p List.mem_cons_self) le_rfl (g := g) v).1
    exact hfirst.symm

theorem count_filterMap_key {key : Value → Option Value} (inputs : List Value) (k : Value) :
    (inputs.filterMap key).count k = inputs.countP (key · = some k) := by
  rw [List.count, List.countP_filterMap]
  refine List.countP_congr fun v _ => ?_
  cases key v <;> simp

/-- A barrier that counts counts every input with a key once.  If the pipelines change nothing and the
first of them fails on none of the inputs, one map comes out.  Its keys are distinct and in the order in
which they first occur, each with the number of the inputs that have it, so all in all it counts the
inputs that have a key. -/
theorem Step.groupCount_counts {ring : Ring Pipeline} (hread : (Step.groupCount ring).ReadOnly)
    {g : Graph} {inputs : List Value} {key : Value → Option Value}
    (hkey : ∀ v ∈ inputs, ring.evaluateKey g v = .ok (key v)) :
    ∃ counts : List (Value × Nat),
      ((Step.groupCount ring).release inputs g).result =
        .ok [.map (counts.map fun p => (p.1, .ofSize p.2))] ∧
      ((Step.groupCount ring).release inputs g).graph = g ∧
      (counts.map (·.1)).Nodup ∧
      (counts.map (·.1)).Pairwise
        (fun k k' => (inputs.filterMap key).idxOf k < (inputs.filterMap key).idxOf k') ∧
      (∀ k n, (k, n) ∈ counts ↔ 0 < n ∧ inputs.countP (key · = some k) = n) ∧
      (counts.map (·.2)).sum = inputs.countP fun v => (key v).isSome := by
  obtain ⟨n, hn⟩ := (Step.groupCount ring).exists_height_eq_succ
  have hchildren : ∀ p ∈ ring.items, Harmless n p := fun p hp =>
    ⟨hread.2 p hp, height_le_succ_iff.1 hn.le p hp⟩
  have hkeys : inputs.mapM (ring.groupKey g) = .ok (inputs.map key) := by
    refine Except.mapM_eq (List.forall₂_map_right_iff.2 (List.forall₂_same.2 fun v hv => ?_))
    rw [Ring.groupKey_eq_evaluateKey hread.2, hkey v hv]
  have htally : Tally (inputs.filterMap key) (countKeys [] (inputs.map key)) := by
    have h := Tally.nil.countedAll (inputs.map key)
    rwa [List.nil_append, List.filterMap_map] at h
  refine ⟨countKeys [] (inputs.map key), ?_, hread.graph_release g rfl inputs, htally.nodup,
    htally.inOrder, fun k n => ?_, ?_⟩
  · simp only [release, hn, machine, releaseWith, groupCounts_eq hchildren, hkeys]
    rfl
  · rw [htally.mem_iff, count_filterMap_key]
  · rw [htally.total, List.length_filterMap_eq_countP]

/-- People and software counted by their labels.  The string has no label, so it is left out; the second
pipeline would fail on it, but is never asked. -/
theorem Step.groupCount_labels :
    let g := ((Graph.empty.addVertex "person").2.addVertex "software").2
    let ring : Ring Pipeline :=
      .ofList [{ steps := [.label] }, { steps := [.adjacent .outward []] }]
    let inputs : List Value :=
      [.vertex ⟨2⟩, .vertex ⟨1⟩, .string "lop", .vertex ⟨2⟩]
    ∃ counts : List (Value × Nat),
      ((Step.groupCount ring).release inputs g).result =
        .ok [.map (counts.map fun p => (p.1, .ofSize p.2))] ∧
      ((Step.groupCount ring).release inputs g).result =
        .ok [.map [(.string "software", .integer 2), (.string "person", .integer 1)]] ∧
      (counts.map (·.2)).sum = 3 := by
  intro g ring inputs
  have hread : (Step.groupCount ring).ReadOnly := Step.readOnly_of_isPlain (by decide)
  have hkey : ∀ v ∈ inputs, ring.evaluateKey g v = .ok ((g.label? v).map .string) := by
    simp only [inputs, List.forall_mem_cons]
    exact ⟨rfl, rfl, rfl, rfl, nofun⟩
  obtain ⟨counts, hresult, -, -, -, -, htotal⟩ := Step.groupCount_counts hread hkey
  exact ⟨counts, hresult, by decide +kernel, htotal⟩

end GraphTraversal
