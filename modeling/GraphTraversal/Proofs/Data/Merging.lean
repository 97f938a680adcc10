import GraphTraversal.Data.DriftSort
import GraphTraversal.Proofs.Data.Arranging

/-! # Merging lists in order

A merge takes of two lists in order the elements that come first.  Under a preorder what it has taken
arranges the parts that it comes from, and none of it is behind anything that is left.  So merging from
the front and from the end come to the same, and where both are done at once the ends meet.
-/

namespace GraphTraversal.DriftSort

variable {α : Type} {cmp : α → α → Ordering} {L l r : List α}

/-! ## Merging -/

/-- What is taken of two lists in order, and what is left of them. -/
structure Advanced (cmp : α → α → Ordering) (L l r : List α) (m : Merging α)
    (fromLeft fromRight : List α) : Prop where
  left : l = fromLeft ++ m.left
  right : r = fromRight ++ m.right
  arranges : Arranges cmp L (fromLeft ++ fromRight) m.taken
  ne_gt : ∀ a ∈ fromLeft, ∀ b ∈ m.right, cmp a b ≠ .gt
  lt : ∀ b ∈ fromRight, ∀ a ∈ m.left, cmp b a = .lt

section Taking

variable {m : Merging α} {fromLeft fromRight : List α} {x y : α} (h : PreorderOn cmp L)

include h

/-- The first of the right list is taken, strictly before all of the left list. -/
theorem Advanced.consRight (hl : x :: l ⊆ L) (hr : y :: r ⊆ L) (hs : InOrder cmp (x :: l))
    (ht : InOrder cmp (y :: r)) (hyx : cmp y x = .lt)
    (hm : Advanced cmp L (x :: l) r m fromLeft fromRight) :
    Advanced cmp L (x :: l) (y :: r) { m with taken := y :: m.taken } fromLeft (y :: fromRight) := by
  obtain ⟨hx, -⟩ := List.pairwise_cons.1 hs
  obtain ⟨hy, -⟩ := List.pairwise_cons.1 ht
  have hxL := hl List.mem_cons_self
  have hyL := hr List.mem_cons_self
  have hlt : ∀ a ∈ x :: l, cmp y a = .lt := List.forall_mem_cons.2
    ⟨hyx, fun a ha => h.lt_of_lt_of_ne_gt hyL hxL (hl (.tail x ha)) hyx (hx a ha)⟩
  have htaken : ∀ a ∈ fromLeft, a ∈ x :: l := fun a ha => hm.left ▸ List.mem_append_left _ ha
  have hmoved : Rearranges cmp L (fromLeft ++ [y] ++ fromRight) ([y] ++ fromLeft ++ fromRight) := by
    refine (rearranges_append_comm h (fun a ha => hl (htaken a ha)) (by simpa using hyL)
      fun a ha b hb => ?_).append (.refl _)
    rw [List.mem_singleton.1 hb, h.gt_of_lt hyL (hl (htaken a ha)) (hlt a (htaken a ha))]
    nofun
  have hcons : Arranges cmp L (y :: (fromLeft ++ fromRight)) (y :: m.taken) :=
    .cons hm.arranges fun b hb => by
      rcases List.mem_append.1 hb with hb | hb
      · simp [hlt b (htaken b hb)]
      · exact hy b (hm.right ▸ List.mem_append_left _ hb)
  refine ⟨hm.left, congrArg (y :: ·) hm.right, ?_, hm.ne_gt,
    List.forall_mem_cons.2 ⟨fun a ha => ?_, hm.lt⟩⟩
  · simpa using hmoved.arranges hcons
  · exact hlt a (hm.left ▸ List.mem_append_right _ ha)

/-- The first of the left list is taken, which nothing in the right list is strictly before. -/
theorem Advanced.consLeft (hl : x :: l ⊆ L) (hr : y :: r ⊆ L) (hs : InOrder cmp (x :: l))
    (ht : InOrder cmp (y :: r)) (hxy : cmp x y ≠ .gt)
    (hm : Advanced cmp L l (y :: r) m fromLeft fromRight) :
    Advanced cmp L (x :: l) (y :: r) { m with taken := x :: m.taken } (x :: fromLeft) fromRight := by
  obtain ⟨hx, -⟩ := List.pairwise_cons.1 hs
  obtain ⟨hy, -⟩ := List.pairwise_cons.1 ht
  have hxL := hl List.mem_cons_self
  have hyL := hr List.mem_cons_self
  have hle : ∀ b ∈ y :: r, cmp x b ≠ .gt := List.forall_mem_cons.2
    ⟨hxy, fun b hb => h.trans x hxL y hyL b (hr (.tail y hb)) hxy (hy b hb)⟩
  refine ⟨congrArg (x :: ·) hm.left, hm.right, .cons hm.arranges fun b hb => ?_,
    List.forall_mem_cons.2 ⟨fun b hb => ?_, hm.ne_gt⟩, hm.lt⟩
  · rcases List.mem_append.1 hb with hb | hb
    · exact hx b (hm.left ▸ List.mem_append_left _ hb)
    · exact hle b (hm.right ▸ List.mem_append_left _ hb)
  · exact hle b (hm.right ▸ List.mem_append_right _ hb)

end Taking

theorem exists_advanced (h : PreorderOn cmp L) (n : Nat) (hl : l ⊆ L) (hr : r ⊆ L)
    (hs : InOrder cmp l) (ht : InOrder cmp r) : ∃ fromLeft fromRight,
      Advanced cmp L l r (advance (strictly cmp) n l r) fromLeft fromRight := by
  have hnothing (l r : List α) : Advanced cmp L l r ⟨[], l, r⟩ [] [] :=
    ⟨rfl, rfl, ⟨.refl [], .nil⟩, nofun, nofun⟩
  induction n generalizing l r with
  | zero => exact ⟨[], [], hnothing l r⟩
  | succ n ih =>
    match l, r with
    | [], r => exact ⟨[], [], hnothing [] r⟩
    | x :: l, [] => exact ⟨[], [], hnothing (x :: l) []⟩
    | x :: l, y :: r =>
      rw [advance]
      split
      · rename_i hbefore
        obtain ⟨fromLeft, fromRight, m⟩ := ih hl (List.subset_of_cons_subset hr) hs ht.of_cons
        exact ⟨_, _, m.consRight h hl hr hs ht (strictly_iff.1 hbefore)⟩
      · rename_i hbefore
        have hxy : cmp x y ≠ .gt := (h.strictly_eq_false_iff (hl List.mem_cons_self)
          (hr List.mem_cons_self)).1 (Bool.eq_false_iff.2 hbefore)
        obtain ⟨fromLeft, fromRight, m⟩ := ih (List.subset_of_cons_subset hl) hr hs.of_cons ht
        exact ⟨_, _, m.consLeft h hl hr hs ht hxy⟩

namespace Advanced

variable {m : Merging α} {fromLeft fromRight : List α} (hm : Advanced cmp L l r m fromLeft fromRight)

include hm

theorem taken_ne_gt (hs : InOrder cmp l) (ht : InOrder cmp r) :
    ∀ a ∈ fromLeft ++ fromRight, ∀ b ∈ m.left ++ m.right, cmp a b ≠ .gt := by
  rw [hm.left] at hs
  rw [hm.right] at ht
  intro a ha b hb
  rcases List.mem_append.1 ha with ha | ha <;> rcases List.mem_append.1 hb with hb | hb
  · exact (List.pairwise_append.1 hs).2.2 a ha b hb
  · exact hm.ne_gt a ha b hb
  · simp [hm.lt a ha b hb]
  · exact (List.pairwise_append.1 ht).2.2 a ha b hb

/-- What is taken may be put in front of what is left. -/
theorem rearranges (h : PreorderOn cmp L) (hl : l ⊆ L) (hr : r ⊆ L) :
    Rearranges cmp L (l ++ r) (fromLeft ++ fromRight ++ (m.left ++ m.right)) := by
  have hleft : m.left ⊆ L := fun a ha => hl (hm.left ▸ List.mem_append_right _ ha)
  have hright : fromRight ⊆ L := fun a ha => hr (hm.right ▸ List.mem_append_left _ ha)
  have hmoved : Rearranges cmp L (fromLeft ++ ((m.left ++ fromRight) ++ m.right))
      (fromLeft ++ ((fromRight ++ m.left) ++ m.right)) := by
    refine (Rearranges.refl _).append ((rearranges_append_comm h hleft hright ?_).append (.refl _))
    intro a ha b hb hab
    have := hm.lt b hb a ha
    rw [h.eq_symm (hleft ha) (hright hb) hab] at this
    cases this
  have hwhole : l ++ r = fromLeft ++ ((m.left ++ fromRight) ++ m.right) := by
    rw [List.append_assoc, ← hm.right, ← List.append_assoc, ← hm.left]
  rw [hwhole]
  simpa using hmoved

end Advanced

theorem Advanced.length_eq {m : Merging α} {fromLeft fromRight : List α}
    (hm : Advanced cmp L l r m fromLeft fromRight) :
    fromLeft.length + fromRight.length = m.taken.length := by
  rw [hm.arranges.perm.length_eq, List.length_append]

theorem length_taken (before : α → α → Bool) {n : Nat} (hl : n ≤ l.length) (hr : n ≤ r.length) :
    (advance before n l r).taken.length = n := by
  induction n generalizing l r with
  | zero => rfl
  | succ n ih =>
    match l, r with
    | [], _ => cases hl
    | _ :: _, [] => cases hr
    | x :: l, y :: r =>
      simp only [List.length_cons, Nat.add_le_add_iff_right] at hl hr
      rw [advance]
      split
      · rw [List.length_cons, ih (l := x :: l) (Nat.le_succ_of_le hl) hr]
      · rw [List.length_cons, ih (r := y :: r) hl (Nat.le_succ_of_le hr)]

theorem advance_at_end (before : α → α → Bool) {n : Nat} (hn : l.length + r.length ≤ n) :
    (advance before n l r).left = [] ∨ (advance before n l r).right = [] := by
  induction n generalizing l r with
  | zero =>
    have hl : l = [] := List.length_eq_zero_iff.1 (by omega)
    exact .inl hl
  | succ n ih =>
    match l, r with
    | [], _ => exact .inl rfl
    | _ :: _, [] => exact .inr rfl
    | x :: l, y :: r =>
      simp only [List.length_cons] at hn
      rw [advance]
      split
      · exact ih (by simp only [List.length_cons]; omega)
      · exact ih (by simp only [List.length_cons]; omega)

section Merge

variable (h : PreorderOn cmp L) (hl : l ⊆ L) (hr : r ⊆ L) (hs : InOrder cmp l) (ht : InOrder cmp r)

include h hl hr hs ht

theorem arranges_merge : Arranges cmp L (l ++ r) (merge (strictly cmp) l r) := by
  obtain ⟨fromLeft, fromRight, m⟩ := exists_advanced h (l.length + r.length) hl hr hs ht
  rw [merge, List.append_assoc]
  refine (m.rearranges h hl hr).arranges (m.arranges.append ⟨.refl _, ?_⟩ (m.taken_ne_gt hs ht))
  rw [m.left] at hs
  rw [m.right] at ht
  rcases advance_at_end (strictly cmp) (Nat.le_refl (l.length + r.length)) with hnil | hnil
  · rw [hnil]
    exact (List.pairwise_append.1 ht).2.1
  · rw [hnil, List.append_nil]
    exact (List.pairwise_append.1 hs).2.1

theorem arranges_mergeFromEnd : Arranges cmp L (l ++ r) (mergeFromEnd (strictly cmp) l r) := by
  have hmerged := arranges_merge h.flip (List.reverse_subset.2 hr) (List.reverse_subset.2 hl)
    (List.pairwise_reverse.2 ht) (List.pairwise_reverse.2 hs)
  have hsub := List.append_subset.2 ⟨List.reverse_subset.2 hr, List.reverse_subset.2 hl⟩
  have hturned := hmerged.of_flip h hsub
  rw [List.reverse_append, List.reverse_reverse, List.reverse_reverse] at hturned
  exact hturned

end Merge

/-! ## Merging from both ends -/

/-- Two ways to cut a list that overlap have an element in common. -/
theorem exists_mem_of_overlap {a b c d : List α} (h : a ++ b = c ++ d) (hlt : c.length < a.length) :
    ∃ x ∈ a, x ∈ d := by
  obtain ⟨e, rfl, -⟩ | ⟨e, rfl, rfl⟩ := List.append_eq_append_iff.1 h
  · rw [List.length_append] at hlt
    omega
  · cases e with
    | nil => simp at hlt
    | cons x e => exact ⟨x, by simp, by simp⟩

/-- Two ways to cut a list that do not overlap leave what is between them. -/
theorem exists_between {a b c d : List α} (h : a ++ b = c ++ d) (hle : a.length ≤ c.length) :
    ∃ e, c = a ++ e ∧ b = e ++ d ∧ b.take (b.length + c.length - (a ++ b).length) = e := by
  obtain ⟨e, rfl, rfl⟩ | ⟨e, rfl, rfl⟩ := List.append_eq_append_iff.1 h
  · refine ⟨e, rfl, rfl, ?_⟩
    have hlength : (e ++ d).length + (a ++ e).length - (a ++ (e ++ d)).length = e.length := by
      simp only [List.length_append]
      omega
    rw [hlength, List.take_left]
  · rw [List.length_append] at hle
    obtain rfl : e = [] := List.length_eq_zero_iff.1 (by omega)
    refine ⟨[], by simp, rfl, ?_⟩
    rw [List.append_nil, List.length_append, Nat.add_comm, Nat.sub_self, List.take_zero]

section BothEnds

variable {front back : Merging α} {a b c d : List α}

theorem left_eq (hfront : Advanced cmp L l r front a b)
    (hback : Advanced (fun x y => cmp y x) L r.reverse l.reverse back d c) :
    a ++ front.left = back.right.reverse ++ c.reverse := by
  rw [← hfront.left, ← List.reverse_append, ← hback.right, List.reverse_reverse]

theorem right_eq (hfront : Advanced cmp L l r front a b)
    (hback : Advanced (fun x y => cmp y x) L r.reverse l.reverse back d c) :
    b ++ front.right = back.left.reverse ++ d.reverse := by
  rw [← hfront.right, ← List.reverse_append, ← hback.left, List.reverse_reverse]

/-- Where the two ends of a merge meet, no element has been taken twice. -/
theorem ends_meet (h : PreorderOn cmp L) (hl : l ⊆ L) (hr : r ⊆ L) (hle : l.length ≤ r.length)
    (hfront : Advanced cmp L l r front a b) (hfront' : front.taken.length = l.length)
    (hback : Advanced (fun x y => cmp y x) L r.reverse l.reverse back d c)
    (hback' : back.taken.length = l.length) :
    a.length ≤ back.right.length ∧ b.length ≤ back.left.length := by
  have hleft := left_eq hfront hback
  have hright := right_eq hfront hback
  have hlengths := congr_arg List.length hleft
  have hlengths' := congr_arg List.length hright
  have hl' := congr_arg List.length hfront.left
  have hr' := congr_arg List.length hfront.right
  simp only [List.length_append, List.length_reverse] at hlengths hlengths' hl' hr'
  rw [← hfront.length_eq] at hfront'
  rw [← hback.length_eq] at hback'
  have hcontra {x y : α} (hx : x ∈ l) (hy : y ∈ r) (hxy : cmp x y ≠ .gt) (hyx : cmp y x = .lt) : False :=
    hxy (h.gt_of_lt (hr hy) (hl hx) hyx)
  -- if one list has an element that was taken twice, the other has one that was not taken at all
  constructor
  · by_contra hmany
    obtain ⟨x, hx, hx'⟩ := exists_mem_of_overlap hleft (by rw [List.length_reverse]; omega)
    obtain ⟨y, hy, hy'⟩ := exists_mem_of_overlap hright.symm (by rw [List.length_reverse]; omega)
    refine hcontra (hfront.left ▸ List.mem_append_left _ hx) (hfront.right ▸ List.mem_append_right _ hy')
      (hfront.ne_gt x hx y hy') ?_
    exact hback.lt x (List.mem_reverse.1 hx') y (List.mem_reverse.1 hy)
  · by_contra hmany
    obtain ⟨y, hy, hy'⟩ := exists_mem_of_overlap hright (by rw [List.length_reverse]; omega)
    obtain ⟨x, hx, hx'⟩ := exists_mem_of_overlap hleft.symm (by rw [List.length_reverse]; omega)
    refine hcontra (hfront.left ▸ List.mem_append_right _ hx') (hfront.right ▸ List.mem_append_left _ hy)
      ?_ (hfront.lt y hy x hx')
    exact hback.ne_gt y (List.mem_reverse.1 hy') x (List.mem_reverse.1 hx)

/-- What is taken at the two ends, and the at most one element between. -/
theorem arranges_bothEnds (h : PreorderOn cmp L) (hl : l ⊆ L) (hr : r ⊆ L) (hs : InOrder cmp l)
    (ht : InOrder cmp r) (hfront : Advanced cmp L l r front a b)
    (hback : Advanced (fun x y => cmp y x) L r.reverse l.reverse back d c) {e f : List α}
    (he : back.right.reverse = a ++ e) (he' : front.left = e ++ c.reverse)
    (hf : back.left.reverse = b ++ f) (hf' : front.right = f ++ d.reverse)
    (hone : e.length + f.length ≤ 1) :
    Arranges cmp L (l ++ r) (front.taken ++ e ++ f ++ back.taken.reverse) := by
  have hs' : InOrder (fun x y => cmp y x) l.reverse := List.pairwise_reverse.2 hs
  have ht' : InOrder (fun x y => cmp y x) r.reverse := List.pairwise_reverse.2 ht
  have hesub : e ⊆ back.right := fun x hx => List.mem_reverse.1 (he ▸ List.mem_append_right a hx)
  have hfsub : f ⊆ back.left := fun x hx => List.mem_reverse.1 (hf ▸ List.mem_append_right b hx)
  have hcL : c ⊆ L := fun x hx =>
    hl (List.mem_reverse.1 (hback.right ▸ List.mem_append_left _ hx))
  have hdL : d ⊆ L := fun x hx =>
    hr (List.mem_reverse.1 (hback.left ▸ List.mem_append_left _ hx))
  have hfL : f ⊆ L := fun x hx =>
    hr (List.mem_reverse.1 (hback.left ▸ List.mem_append_right _ (hfsub hx)))
  -- the element between stands behind the front and before the back
  have hbetween : Arranges cmp L (e ++ f) (e ++ f) :=
    ⟨.refl _, inOrder_of_length_le_one (by rwa [List.length_append])⟩
  have hlast : Arranges cmp L (c.reverse ++ d.reverse) back.taken.reverse := by
    have hturned := hback.arranges.of_flip h (List.append_subset.2 ⟨hdL, hcL⟩)
    rwa [List.reverse_append] at hturned
  have hrest : Arranges cmp L (front.left ++ front.right) (e ++ f ++ back.taken.reverse) := by
    have hmoved : Rearranges cmp L (e ++ ((c.reverse ++ f) ++ d.reverse))
        (e ++ ((f ++ c.reverse) ++ d.reverse)) := by
      refine (Rearranges.refl e).append ((rearranges_append_comm h (List.reverse_subset.2 hcL) hfL
        fun x hx y hy hxy => ?_).append (.refl _))
      have hyx := hback.lt x (List.mem_reverse.1 hx) y (hfsub hy)
      rw [h.eq_symm (hcL (List.mem_reverse.1 hx)) (hfL hy) hxy] at hyx
      cases hyx
    have happended := hbetween.append hlast fun x hx y hy => by
      refine hback.taken_ne_gt ht' hs' y ?_ x ?_
      · simpa [or_comm] using hy
      · rcases List.mem_append.1 hx with hx | hx
        · exact List.mem_append_right _ (hesub hx)
        · exact List.mem_append_left _ (hfsub hx)
    rw [he', hf']
    refine Rearranges.arranges ?_ happended
    simpa using hmoved
  have hwhole := hfront.arranges.append hrest (hfront.taken_ne_gt hs ht)
  have harranges := (hfront.rearranges h hl hr).arranges hwhole
  simpa using harranges

/-- Merging from both ends takes no element twice. -/
theorem exists_mergeFromBothEnds (h : PreorderOn cmp L) (hl : l ⊆ L) (hr : r ⊆ L)
    (hs : InOrder cmp l) (ht : InOrder cmp r) (hle : l.length ≤ r.length)
    (hlt : r.length ≤ l.length + 1) :
    ∃ m, mergeFromBothEnds (strictly cmp) l r = some m ∧ Arranges cmp L (l ++ r) m := by
  obtain ⟨a, b, hfront⟩ := exists_advanced h l.length hl hr hs ht
  obtain ⟨d, c, hback⟩ := exists_advanced h.flip l.length (List.reverse_subset.2 hr)
    (List.reverse_subset.2 hl) (List.pairwise_reverse.2 ht) (List.pairwise_reverse.2 hs)
  have hfront' := length_taken (strictly cmp) (Nat.le_refl l.length) hle
  have hback' := length_taken (strictly fun x y => cmp y x) (n := l.length) (l := r.reverse)
    (r := l.reverse) (by rwa [List.length_reverse]) (Nat.le_of_eq List.length_reverse.symm)
  have hturned : (fun x y => strictly cmp y x) = strictly fun x y => cmp y x := rfl
  simp only [mergeFromBothEnds, hturned]
  generalize advance (strictly cmp) l.length l r = front at *
  generalize advance (strictly fun x y => cmp y x) l.length r.reverse l.reverse = back at *
  obtain ⟨hleft, hright⟩ := ends_meet h hl hr hle hfront hfront' hback hback'
  have hlengths := hfront.length_eq.trans hfront'
  have hlengths' := hback.length_eq.trans hback'
  obtain ⟨e, he, he', hetake⟩ := exists_between (left_eq hfront hback) (by rwa [List.length_reverse])
  obtain ⟨f, hf, hf', hftake⟩ := exists_between (right_eq hfront hback) (by rwa [List.length_reverse])
  rw [← hfront.left, List.length_reverse] at hetake
  rw [← hfront.right, List.length_reverse] at hftake
  have hl' := congr_arg List.length hfront.left
  have hr' := congr_arg List.length hfront.right
  rw [List.length_append] at hl' hr'
  refine ⟨_, if_pos ⟨by omega, by omega⟩, ?_⟩
  rw [hetake, hftake]
  apply arranges_bothEnds h hl hr hs ht hfront hback he he' hf hf'
  rw [he', List.length_append, List.length_reverse] at hl'
  rw [hf', List.length_append, List.length_reverse] at hr'
  omega

end BothEnds

end GraphTraversal.DriftSort
