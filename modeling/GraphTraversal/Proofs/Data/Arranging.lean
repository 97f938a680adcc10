import GraphTraversal.Proofs.Data.StableSort

/-! # Stable rearrangements

A rearrangement is stable if elements that compare equal keep the order in which they stand.  A list has
only one stable rearrangement that is in order, so all ways to sort it stably come to the same.
-/

namespace GraphTraversal

variable {α : Type} {cmp : α → α → Ordering} {L l l' l'' r r' : List α}

def strictly (cmp : α → α → Ordering) (a b : α) : Bool := cmp a b == .lt

theorem strictly_iff {a b : α} : strictly cmp a b = true ↔ cmp a b = .lt := beq_iff_eq

/-- Elements of which none comes strictly before one that stands before it. -/
def InOrder (cmp : α → α → Ordering) (l : List α) : Prop := l.Pairwise fun a b => cmp a b ≠ .gt

theorem inOrder_of_length_le_one (h : l.length ≤ 1) : InOrder cmp l := by
  match l with
  | [] => exact .nil
  | [x] => exact List.pairwise_singleton _ x
  | _ :: _ :: _ => simp at h

/-! ## Comparing elements of a list -/

namespace PreorderOn

variable (h : PreorderOn cmp L) {a b c : α}

include h

theorem compare_self (ha : a ∈ L) : cmp a a = .eq := by
  have hswap := h.swap a ha a ha
  cases hcmp : cmp a a <;> simp_all

theorem eq_symm (ha : a ∈ L) (hb : b ∈ L) (hab : cmp a b = .eq) : cmp b a = .eq := by
  rw [h.swap a ha b hb, hab]
  rfl

theorem gt_of_lt (ha : a ∈ L) (hb : b ∈ L) (hab : cmp a b = .lt) : cmp b a = .gt := by
  rw [h.swap a ha b hb, hab]
  rfl

theorem ne_gt_iff (ha : a ∈ L) (hb : b ∈ L) : cmp a b ≠ .gt ↔ cmp b a ≠ .lt := by
  rw [h.swap a ha b hb]
  cases cmp a b <;> simp

theorem strictly_eq_false_iff (ha : a ∈ L) (hb : b ∈ L) :
    strictly cmp b a = false ↔ cmp a b ≠ .gt := by
  rw [h.ne_gt_iff ha hb, strictly, beq_eq_false_iff_ne]

theorem lt_of_lt_of_ne_gt (ha : a ∈ L) (hb : b ∈ L) (hc : c ∈ L) (hab : cmp a b = .lt)
    (hbc : cmp b c ≠ .gt) : cmp a c = .lt := by
  cases hac : cmp a c with
  | lt => rfl
  | gt => exact absurd hac (h.trans a ha b hb c hc (by simp [hab]) hbc)
  | eq =>
    have hca : cmp c a ≠ .gt := by simp [h.eq_symm ha hc hac]
    exact absurd (h.gt_of_lt ha hb hab) (h.trans b hb c hc a ha hbc hca)

theorem lt_of_ne_gt_of_lt (ha : a ∈ L) (hb : b ∈ L) (hc : c ∈ L) (hab : cmp a b ≠ .gt)
    (hbc : cmp b c = .lt) : cmp a c = .lt := by
  cases hac : cmp a c with
  | lt => rfl
  | gt => exact absurd hac (h.trans a ha b hb c hc hab (by simp [hbc]))
  | eq =>
    have hca : cmp c a ≠ .gt := by simp [h.eq_symm ha hc hac]
    exact absurd (h.gt_of_lt hb hc hbc) (h.trans c hc a ha b hb hca hab)

theorem eq_trans (ha : a ∈ L) (hb : b ∈ L) (hc : c ∈ L) (hab : cmp a b = .eq) (hbc : cmp b c = .eq) :
    cmp a c = .eq := by
  cases hac : cmp a c with
  | eq => rfl
  | gt => exact absurd hac (h.trans a ha b hb c hc (by simp [hab]) (by simp [hbc]))
  | lt =>
    have hcb : cmp c b ≠ .gt := by simp [h.eq_symm hb hc hbc]
    have := h.lt_of_lt_of_ne_gt ha hc hb hac hcb
    simp [hab] at this

/-- The comparison turned around. -/
theorem flip : PreorderOn (fun a b => cmp b a) L where
  swap a ha b hb := h.swap b hb a ha
  trans a ha b hb c hc hab hbc := h.trans c hc b hb a ha hbc hab

end PreorderOn

/-! ## Rearrangements -/

/-- The second list has the elements of the first, those that compare equal with an element of `L` in
the same order. -/
structure Rearranges (cmp : α → α → Ordering) (L l l' : List α) : Prop where
  perm : l'.Perm l
  ties : ∀ x ∈ L, l'.filter (cmp x · == .eq) = l.filter (cmp x · == .eq)

namespace Rearranges

theorem refl (l : List α) : Rearranges cmp L l l := ⟨.refl l, fun _ _ => rfl⟩

theorem trans (h : Rearranges cmp L l l') (h' : Rearranges cmp L l' l'') : Rearranges cmp L l l'' where
  perm := h'.perm.trans h.perm
  ties x hx := (h'.ties x hx).trans (h.ties x hx)

theorem append (h : Rearranges cmp L l l') (h' : Rearranges cmp L r r') :
    Rearranges cmp L (l ++ r) (l' ++ r') where
  perm := h.perm.append h'.perm
  ties x hx := by rw [List.filter_append, List.filter_append, h.ties x hx, h'.ties x hx]

theorem cons (h : Rearranges cmp L l l') (a : α) : Rearranges cmp L (a :: l) (a :: l') :=
  (refl [a]).append h

theorem reverse (h : Rearranges cmp L l l') : Rearranges cmp L l.reverse l'.reverse where
  perm := (l'.reverse_perm.trans h.perm).trans l.reverse_perm.symm
  ties x hx := by rw [List.filter_reverse, List.filter_reverse, h.ties x hx]

theorem subset (h : Rearranges cmp L l l') (hl : l ⊆ L) : l' ⊆ L := fun _ hx => hl (h.perm.subset hx)

end Rearranges

theorem filter_and_eq_left {t p : α → Bool} (h : ∀ a ∈ l, t a = true → p a = true) :
    l.filter (fun a => t a && p a) = l.filter t := by
  refine List.filter_congr fun a ha => ?_
  cases hta : t a with
  | false => rfl
  | true => rw [h a ha hta]; rfl

theorem filter_and_eq_nil {t p : α → Bool} (h : ∀ a ∈ l, t a = true → p a = false) :
    l.filter (fun a => t a && p a) = [] := by
  refine List.filter_eq_nil_iff.2 fun a ha hta => ?_
  obtain ⟨hta, hpa⟩ := Bool.and_eq_true_iff.1 hta
  rw [h a ha hta] at hpa
  cases hpa

section Separating

variable (h : PreorderOn cmp L)

include h

/-- The elements that equal `x` are all among those with a property or all among those without it. -/
theorem PreorderOn.filter_ties (hl : l ⊆ L) {p : α → Bool}
    (hp : ∀ a ∈ l, ∀ b ∈ l, p a = true → p b = false → cmp a b ≠ .eq) {x : α} (hx : x ∈ L) :
    (∀ a ∈ l, cmp x a = .eq → p a = true) ∨ ∀ a ∈ l, cmp x a = .eq → p a = false := by
  refine or_iff_not_imp_left.2 fun hsome => ?_
  simp only [not_forall] at hsome
  obtain ⟨b, hb, hxb, hpb⟩ := hsome
  intro a ha hxa
  refine Bool.eq_false_iff.2 fun hpa => hp a ha b hb hpa (Bool.eq_false_iff.2 hpb) ?_
  exact h.eq_trans (hl ha) hx (hl hb) (h.eq_symm hx (hl ha) hxa) hxb

/-- Elements that equal none of the others may be moved to the front. -/
theorem rearranges_filter (hl : l ⊆ L) {p : α → Bool}
    (hp : ∀ a ∈ l, ∀ b ∈ l, p a = true → p b = false → cmp a b ≠ .eq) :
    Rearranges cmp L l (l.filter p ++ l.filter (!p ·)) where
  perm := List.filter_append_perm p l
  ties x hx := by
    rw [List.filter_append, List.filter_filter, List.filter_filter]
    rcases h.filter_ties hl hp hx with hall | hnone
    · rw [filter_and_eq_left fun a ha hxa => hall a ha (eq_of_beq hxa),
        filter_and_eq_nil fun a ha hxa => by simp [hall a ha (eq_of_beq hxa)], List.append_nil]
    · rw [filter_and_eq_nil fun a ha hxa => hnone a ha (eq_of_beq hxa),
        filter_and_eq_left fun a ha hxa => by simp [hnone a ha (eq_of_beq hxa)], List.nil_append]

/-- Lists without common equals may be exchanged. -/
theorem rearranges_append_comm (hl : l ⊆ L) (hr : r ⊆ L) (hne : ∀ a ∈ l, ∀ b ∈ r, cmp a b ≠ .eq) :
    Rearranges cmp L (l ++ r) (r ++ l) where
  perm := List.perm_append_comm
  ties x hx := by
    rw [List.filter_append, List.filter_append]
    by_cases hsome : ∃ a ∈ l, cmp x a = .eq
    · obtain ⟨a, ha, hxa⟩ := hsome
      have hnone : r.filter (cmp x · == .eq) = [] := by
        refine List.filter_eq_nil_iff.2 fun b hb hxb => hne a ha b hb ?_
        exact h.eq_trans (hl ha) hx (hr hb) (h.eq_symm hx (hl ha) hxa) (eq_of_beq hxb)
      rw [hnone, List.append_nil, List.nil_append]
    · have hnone : l.filter (cmp x · == .eq) = [] :=
        List.filter_eq_nil_iff.2 fun a ha hxa => hsome ⟨a, ha, eq_of_beq hxa⟩
      rw [hnone, List.append_nil, List.nil_append]

theorem rearranges_swap {a b : α} (ha : a ∈ L) (hb : b ∈ L) (hl : cmp a b ≠ .eq) (l : List α) :
    Rearranges cmp L (a :: b :: l) (b :: a :: l) :=
  (rearranges_append_comm h (l := [a]) (r := [b]) (by simpa) (by simpa) (by simpa)).append (.refl l)

end Separating

/-! ## Arrangements -/

/-- The second list is a stable rearrangement of the first and in order. -/
structure Arranges (cmp : α → α → Ordering) (L l l' : List α) : Prop extends
    Rearranges cmp L l l' where
  inOrder : InOrder cmp l'

/-- Of stable rearrangements only one is in order. -/
theorem Rearranges.eq_of_inOrder (h : PreorderOn cmp L) (hl : l ⊆ L) (hr : Rearranges cmp L l l')
    (hs : InOrder cmp l) (hs' : InOrder cmp l') : l = l' := by
  induction l generalizing l' with
  | nil => exact hr.perm.eq_nil.symm
  | cons x l ih =>
    cases l' with
    | nil => exact hr.perm.symm.eq_nil
    | cons y l' =>
      obtain ⟨hx, hrest⟩ := List.pairwise_cons.1 hs
      obtain ⟨hy, hrest'⟩ := List.pairwise_cons.1 hs'
      have hxL := hl List.mem_cons_self
      have hself := h.compare_self hxL
      -- both heads are first among equals
      have hxy : cmp x y = .eq := by
        rcases List.mem_cons.1 (hr.perm.subset List.mem_cons_self) with rfl | hyl
        · exact hself
        rcases List.mem_cons.1 (hr.perm.symm.subset List.mem_cons_self) with rfl | hxl'
        · exact hself
        have hle := hx y hyl
        have hge := (h.ne_gt_iff (hl (.tail x hyl)) hxL).1 (hy x hxl')
        cases hcmp : cmp x y <;> simp_all
      have hties := hr.ties x hxL
      simp only [List.filter_cons, hself, hxy, beq_self_eq_true, if_true] at hties
      obtain ⟨rfl, -⟩ := List.cons_eq_cons.1 hties
      congr 1
      refine ih (List.subset_of_cons_subset hl) ⟨hr.perm.cons_inv, fun z hz => ?_⟩ hrest hrest'
      have hties := hr.ties z hz
      simp only [List.filter_cons] at hties
      split at hties
      · exact (List.cons_eq_cons.1 hties).2
      · exact hties

theorem Rearranges.arranges (h : Rearranges cmp L l l') (h' : Arranges cmp L l' l'') :
    Arranges cmp L l l'' :=
  ⟨h.trans h'.toRearranges, h'.inOrder⟩

namespace Arranges

theorem eq (h : PreorderOn cmp L) (hl : l ⊆ L) (ha : Arranges cmp L l l') (ha' : Arranges cmp L l l'') :
    l' = l'' := by
  refine Rearranges.eq_of_inOrder h (ha.subset hl) ⟨?_, fun x hx => ?_⟩ ha.inOrder ha'.inOrder
  · exact ha'.perm.trans ha.perm.symm
  · exact (ha'.ties x hx).trans (ha.ties x hx).symm

/-- Arranged lists make an arranged list if nothing in the first is behind anything in the second. -/
theorem append (h : Arranges cmp L l l') (h' : Arranges cmp L r r')
    (hle : ∀ a ∈ l, ∀ b ∈ r, cmp a b ≠ .gt) : Arranges cmp L (l ++ r) (l' ++ r') where
  toRearranges := h.toRearranges.append h'.toRearranges
  inOrder := List.pairwise_append.2 ⟨h.inOrder, h'.inOrder,
    fun a ha b hb => hle a (h.perm.subset ha) b (h'.perm.subset hb)⟩

theorem cons (h : Arranges cmp L l l') {a : α} (hle : ∀ b ∈ l, cmp a b ≠ .gt) :
    Arranges cmp L (a :: l) (a :: l') :=
  append (l := [a]) ⟨.refl [a], List.pairwise_singleton _ a⟩ h (by simpa)

/-- What is arranged by the comparison turned around is arranged from last to first. -/
theorem of_flip (h : PreorderOn cmp L) (hl : l ⊆ L) (ha : Arranges (fun a b => cmp b a) L l l') :
    Arranges cmp L l.reverse l'.reverse where
  perm := ((List.reverse_perm _).trans ha.perm).trans (List.reverse_perm _).symm
  ties x hx := by
    have hties := ha.ties x hx
    have hturned {m : List α} (hm : m ⊆ L) :
        m.filter (fun a => cmp x a == .eq) = m.filter (fun a => cmp a x == .eq) := by
      refine List.filter_congr fun a ha => ?_
      rw [h.swap a (hm ha) x hx]
      cases cmp a x <;> rfl
    rw [List.filter_reverse, List.filter_reverse, hturned hl, hturned (ha.subset hl), hties]
  inOrder := List.pairwise_reverse.2 ha.inOrder

end Arranges

/-! ## Insertion -/

section Insertion

variable (h : PreorderOn cmp L)

include h

theorem rearranges_insertFromEnd {x : α} (hx : x ∈ L) (hl : l ⊆ L) :
    Rearranges cmp L (x :: l) (insertFromEnd (strictly cmp) x l) := by
  induction l with
  | nil => exact .refl [x]
  | cons y l ih =>
    obtain ⟨hy, hl⟩ := List.cons_subset.1 hl
    rw [insertFromEnd]
    split
    · rename_i hbefore
      have hne : cmp x y ≠ .eq := by simp [strictly_iff.1 hbefore]
      exact (rearranges_swap h hx hy hne l).trans ((ih hl).cons y)
    · exact .refl _

theorem arranges_insertEach (hl : l ⊆ L) (hs : InOrder cmp l) (hr : r ⊆ L) :
    Arranges cmp L (l ++ r) (insertEach (strictly cmp) l r) := by
  suffices hfold : ∀ acc : List α, acc ⊆ L → InOrder cmp acc.reverse →
      Arranges cmp L (acc.reverse ++ r)
        (r.foldl (fun sorted x => insertFromEnd (strictly cmp) x sorted) acc).reverse by
    simpa [insertEach] using hfold l.reverse (by simpa using hl) (by simpa using hs)
  clear hs hl
  induction r with
  | nil => exact fun acc _ hs => ⟨by rw [List.append_nil]; exact .refl _, hs⟩
  | cons x r ih =>
    intro acc hacc hs
    obtain ⟨hx, hr⟩ := List.cons_subset.1 hr
    have hinserted := rearranges_insertFromEnd h hx hacc
    have hsub := hinserted.subset (List.cons_subset.2 ⟨hx, hacc⟩)
    have hpairs : acc.Pairwise fun b a => StablyBefore cmp (fun _ _ => True) a b := by
      refine (List.pairwise_reverse.1 hs).imp fun hab => stablyBefore_of_ne_gt hab trivial
    have hsorted := pairwise_insertFromEnd (h.mono (List.cons_subset.2 ⟨hx, hacc⟩))
      (fun _ _ => trivial) hpairs
    refine Rearranges.arranges ?_ (ih hr _ hsub (List.pairwise_reverse.2 (hsorted.imp (·.ne_gt))))
    have hmoved := hinserted.reverse
    rw [List.reverse_cons] at hmoved
    simpa using hmoved.append (.refl r)

theorem arranges_stableSort (hl : l ⊆ L) : Arranges cmp L l (stableSort (strictly cmp) l) :=
  arranges_insertEach h (List.nil_subset L) .nil hl

end Insertion

end GraphTraversal
