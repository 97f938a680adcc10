import Mathlib.Data.List.Induction
import GraphTraversal.Data.StableSort

/-! # What a stable sort does

Insertion keeps a list in order if the comparison is a total preorder on its elements.  Each element is
inserted behind those that it compares equal with, so the order in which these stood is kept.
-/

namespace GraphTraversal

variable {α β : Type}

/-! ## One insertion -/

section Insertion

variable (before : α → α → Bool) (x : α)

theorem insertFromEnd_perm (l : List α) : (insertFromEnd before x l).Perm (x :: l) := by
  induction l with
  | nil => exact .refl _
  | cons y l ih =>
    rw [insertFromEnd]
    split
    · exact (ih.cons y).trans (.swap x y l)
    · exact .refl _

theorem insertFromEnd_map (f : β → α) (y : β) (l : List β) :
    insertFromEnd before (f y) (l.map f) =
      (insertFromEnd (fun a b => before (f a) (f b)) y l).map f := by
  induction l with
  | nil => rfl
  | cons z l ih =>
    simp only [List.map_cons, insertFromEnd, ih]
    split <;> rfl

theorem insertFromEnd_congr {before' : α → α → Bool} {x : α} {l : List α}
    (h : ∀ y ∈ l, before x y = before' x y) :
    insertFromEnd before x l = insertFromEnd before' x l := by
  induction l with
  | nil => rfl
  | cons y l ih =>
    obtain ⟨hy, hl⟩ := List.forall_mem_cons.1 h
    rw [insertFromEnd, insertFromEnd, hy, ih hl]

end Insertion

/-! ## Whole lists -/

theorem stableSort_concat (before : α → α → Bool) (l : List α) (x : α) :
    stableSort before (l ++ [x]) =
      (insertFromEnd before x (stableSort before l).reverse).reverse := by
  simp [stableSort, insertEach]

theorem stableSort_perm (before : α → α → Bool) (l : List α) : (stableSort before l).Perm l := by
  induction l using List.reverseRecOn with
  | nil => exact .refl _
  | append_singleton l x ih =>
    rw [stableSort_concat]
    have hsorted : (x :: (stableSort before l).reverse).Perm (x :: l) :=
      ((List.reverse_perm _).trans ih).cons x
    have hinserted := (insertFromEnd_perm before x (stableSort before l).reverse).trans hsorted
    exact (List.reverse_perm _).trans (hinserted.trans (List.perm_append_singleton x l).symm)

/-- To sort elements of which only images are compared is to sort the images. -/
theorem stableSort_map (before : α → α → Bool) (f : β → α) (l : List β) :
    stableSort before (l.map f) = (stableSort (fun a b => before (f a) (f b)) l).map f := by
  induction l using List.reverseRecOn with
  | nil => rfl
  | append_singleton l x ih =>
    rw [List.map_append, List.map_singleton, stableSort_concat, ih, ← List.map_reverse,
      insertFromEnd_map, ← List.map_reverse, stableSort_concat]

theorem stableSort_congr {before before' : α → α → Bool} {l : List α}
    (h : ∀ a ∈ l, ∀ b ∈ l, before a b = before' a b) : stableSort before l = stableSort before' l := by
  induction l using List.reverseRecOn with
  | nil => rfl
  | append_singleton l x ih =>
    simp only [List.forall_mem_append, List.forall_mem_singleton] at h
    rw [stableSort_concat, stableSort_concat, ih fun a ha b hb => (h.1 a ha).1 b hb]
    rw [insertFromEnd_congr]
    intro y hy
    exact h.2.1 y ((stableSort_perm _ l).subset (List.mem_reverse.1 hy))

/-! ## Order -/

/-- On the elements of a list the comparison is a total preorder. -/
structure PreorderOn (cmp : α → α → Ordering) (l : List α) : Prop where
  swap : ∀ a ∈ l, ∀ b ∈ l, cmp b a = (cmp a b).swap
  trans : ∀ a ∈ l, ∀ b ∈ l, ∀ c ∈ l, cmp a b ≠ .gt → cmp b c ≠ .gt → cmp a c ≠ .gt

/-- One comes before the other, or they compare equal and then `R` holds. -/
def StablyBefore (cmp : α → α → Ordering) (R : α → α → Prop) (a b : α) : Prop :=
  cmp a b = .lt ∨ cmp a b = .eq ∧ R a b

section Order

variable {cmp : α → α → Ordering} {R : α → α → Prop}

theorem StablyBefore.ne_gt {a b : α} (h : StablyBefore cmp R a b) : cmp a b ≠ .gt := by
  obtain h | ⟨h, -⟩ := h <;> simp [h]

theorem stablyBefore_of_ne_gt {a b : α} (h : cmp a b ≠ .gt) (hR : R a b) : StablyBefore cmp R a b := by
  cases hcmp : cmp a b with
  | lt => exact .inl hcmp
  | eq => exact .inr ⟨hcmp, hR⟩
  | gt => exact absurd hcmp h

theorem PreorderOn.mono {l l' : List α} (h : PreorderOn cmp l) (hsub : l' ⊆ l) : PreorderOn cmp l' where
  swap a ha b hb := h.swap a (hsub ha) b (hsub hb)
  trans a ha b hb c hc := h.trans a (hsub ha) b (hsub hb) c (hsub hc)

theorem PreorderOn.congr {cmp' : α → α → Ordering} {l : List α} (h : PreorderOn cmp l)
    (hcmp : ∀ a ∈ l, ∀ b ∈ l, cmp a b = cmp' a b) : PreorderOn cmp' l where
  swap a ha b hb := by
    rw [← hcmp b hb a ha, ← hcmp a ha b hb]
    exact h.swap a ha b hb
  trans a ha b hb c hc := by
    rw [← hcmp a ha b hb, ← hcmp b hb c hc, ← hcmp a ha c hc]
    exact h.trans a ha b hb c hc

theorem PreorderOn.map {β : Type} {cmp : β → β → Ordering} {f : α → β} {l : List α}
    (h : PreorderOn (fun a b => cmp (f a) (f b)) l) : PreorderOn cmp (l.map f) := by
  constructor <;> simp only [List.forall_mem_map]
  · exact h.swap
  · exact h.trans

/-- An element is inserted behind those that it does not come before. -/
theorem pairwise_insertFromEnd {x : α} {l : List α} (hcmp : PreorderOn cmp (x :: l))
    (hR : ∀ y ∈ l, R y x) (hl : l.Pairwise fun b a => StablyBefore cmp R a b) :
    (insertFromEnd (fun a b => cmp a b == .lt) x l).Pairwise fun b a => StablyBefore cmp R a b := by
  induction l with
  | nil => exact List.pairwise_singleton _ x
  | cons y l ih =>
    obtain ⟨hy, hrest⟩ := List.pairwise_cons.1 hl
    rw [insertFromEnd]
    split
    · rename_i hbefore
      have hsub : x :: l ⊆ x :: y :: l := List.cons_subset_cons x (List.subset_cons_self y l)
      have hinserted := ih (hcmp.mono hsub) (fun z hz => hR z (.tail y hz)) hrest
      refine List.pairwise_cons.2 ⟨fun z hz => ?_, hinserted⟩
      obtain rfl | hz := List.mem_cons.1 ((insertFromEnd_perm _ x l).subset hz)
      · exact .inl (eq_of_beq hbefore)
      · exact hy z hz
    · rename_i hbefore
      have hyx : cmp y x ≠ .gt := by
        rw [hcmp.swap x List.mem_cons_self y (.tail x List.mem_cons_self)]
        simpa [Ordering.swap_eq_gt] using hbefore
      refine List.pairwise_cons.2 ⟨fun z hz => stablyBefore_of_ne_gt ?_ (hR z hz), hl⟩
      obtain rfl | hz := List.mem_cons.1 hz
      · exact hyx
      · -- `z` is in order before `y`, and `y` before `x`
        exact hcmp.trans z (.tail x (.tail y hz)) y (.tail x List.mem_cons_self) x List.mem_cons_self
          (hy z hz).ne_gt hyx

/-- Sorting puts a list in order and leaves elements that compare equal in the order that they had. -/
theorem pairwise_stableSort {l : List α} (hcmp : PreorderOn cmp l) (hR : l.Pairwise R) :
    (stableSort (fun a b => cmp a b == .lt) l).Pairwise (StablyBefore cmp R) := by
  induction l using List.reverseRecOn with
  | nil => exact .nil
  | append_singleton l x ih =>
    obtain ⟨hl, -, hx⟩ := List.pairwise_append.1 hR
    have hperm := (List.reverse_perm _).trans (stableSort_perm (fun a b => cmp a b == .lt) l)
    rw [stableSort_concat, List.pairwise_reverse]
    apply pairwise_insertFromEnd
    · refine hcmp.mono fun y hy => ?_
      obtain rfl | hy := List.mem_cons.1 hy
      · exact List.mem_append_right l List.mem_cons_self
      · exact List.mem_append_left [x] (hperm.subset hy)
    · exact fun y hy => hx y (hperm.subset hy) x List.mem_cons_self
    · rw [List.pairwise_reverse]
      exact ih (hcmp.mono (List.subset_append_left l [x])) hl

end Order

/-- A list sorted, with the places where its elements stood. -/
theorem exists_stable_order {cmp : α → α → Ordering} {l : List α} (hcmp : PreorderOn cmp l) :
    ∃ order : List (α × Nat), order.Perm l.zipIdx ∧
      order.map (·.1) = stableSort (fun a b => cmp a b == .lt) l ∧
      order.Pairwise (StablyBefore (fun a b => cmp a.1 b.1) fun a b => a.2 < b.2) := by
  have hvalues : l.zipIdx.map (·.1) = l := List.zipIdx_map_fst 0 l
  have hplaces : l.zipIdx.Pairwise fun a b => a.2 < b.2 := by
    rw [← List.pairwise_map (f := fun a : α × Nat => a.2) (R := (· < ·)), List.zipIdx_map_snd]
    exact List.pairwise_lt_range'
  refine ⟨_, stableSort_perm (fun a b => cmp a.1 b.1 == .lt) l.zipIdx, ?_,
    pairwise_stableSort ⟨fun a ha b hb => ?_, fun a ha b hb c hc => ?_⟩ hplaces⟩
  · rw [← stableSort_map (fun a b => cmp a b == .lt) Prod.fst, hvalues]
  · exact hcmp.swap _ (List.fst_mem_of_mem_zipIdx ha) _ (List.fst_mem_of_mem_zipIdx hb)
  · exact hcmp.trans _ (List.fst_mem_of_mem_zipIdx ha) _ (List.fst_mem_of_mem_zipIdx hb) _
      (List.fst_mem_of_mem_zipIdx hc)

end GraphTraversal
