import GraphTraversal.Proofs.Data.Merging

/-! # Sorting long lists

Whatever stretches a list is cut into, in whatever tree they are merged and whichever pivots are chosen,
each part of the sort arranges what it is given, if the comparison is a preorder.  So the sort comes to
the same as insertion, and never gives up.
-/

namespace GraphTraversal.DriftSort

variable {α : Type} {cmp : α → α → Ordering} {L l r : List α}

/-- The function succeeds on lists of elements of `L` and arranges them. -/
def Sorts (cmp : α → α → Ordering) (L : List α) (f : List α → Option (List α)) : Prop :=
  ∀ l ⊆ L, ∃ m, f l = some m ∧ Arranges cmp L l m

/-! ## Few elements -/

section Few

variable (h : PreorderOn cmp L)

include h

theorem exists_pair {w x : α} (hw : w ∈ L) (hx : x ∈ L) :
    ∃ a b, (if strictly cmp x w then (x, w) else (w, x)) = (a, b) ∧ Arranges cmp L [w, x] [a, b] := by
  have hsorted := arranges_stableSort h (l := [w, x]) (by simp [hw, hx])
  have hstable : stableSort (strictly cmp) [w, x] = if strictly cmp x w then [x, w] else [w, x] := by
    simp only [stableSort, insertEach, List.reverse_nil, List.foldl_cons, List.foldl_nil,
      insertFromEnd]
    split <;> rfl
  rw [hstable] at hsorted
  split at hsorted
  · exact ⟨x, w, if_pos ‹_›, hsorted⟩
  · exact ⟨w, x, if_neg ‹_›, hsorted⟩

theorem mergePairs_eq {a b c d : α} (ha : a ∈ L) (hb : b ∈ L) (hc : c ∈ L) (hd : d ∈ L)
    (hs : InOrder cmp [a, b]) (ht : InOrder cmp [c, d]) :
    mergePairs (strictly cmp) a b c d = merge (strictly cmp) [a, b] [c, d] := by
  have hab := List.rel_of_pairwise_cons hs (List.mem_singleton_self b)
  have hcd := List.rel_of_pairwise_cons ht (List.mem_singleton_self d)
  have hba := (h.strictly_eq_false_iff ha hb).2 hab
  have hdc := (h.strictly_eq_false_iff hc hd).2 hcd
  -- the comparisons that are left out follow from those that are made
  have hda : strictly cmp d b = false → strictly cmp d a = false := fun hdb =>
    (h.strictly_eq_false_iff ha hd).2
      (h.trans a ha b hb d hd hab ((h.strictly_eq_false_iff hb hd).1 hdb))
  have hcb : strictly cmp d b = true → strictly cmp c b = true := fun hdb =>
    strictly_iff.2 (h.lt_of_ne_gt_of_lt hc hd hb hcd (strictly_iff.1 hdb))
  simp only [mergePairs, merge, advance, List.length_cons, List.length_nil]
  cases hca : strictly cmp c a <;> cases hdb : strictly cmp d b <;> simp_all
  · cases strictly cmp c b <;> simp_all
  · cases strictly cmp d a <;> simp_all

theorem arranges_sortFour {w x y z : α} (hL : [w, x, y, z] ⊆ L) :
    Arranges cmp L [w, x, y, z] (sortFour (strictly cmp) w x y z) := by
  simp only [List.cons_subset, List.nil_subset, and_true] at hL
  obtain ⟨hw, hx, hy, hz⟩ := hL
  obtain ⟨a, b, hab, hfirst⟩ := exists_pair h hw hx
  obtain ⟨c, d, hcd, hsecond⟩ := exists_pair h hy hz
  have hfirstL := hfirst.subset (by simp [hw, hx])
  have hsecondL := hsecond.subset (by simp [hy, hz])
  have hmerged := arranges_merge h hfirstL hsecondL hfirst.inOrder hsecond.inOrder
  rw [sortFour, hab, hcd]
  simp only
  rw [mergePairs_eq h (hfirstL (by simp)) (hfirstL (by simp)) (hsecondL (by simp))
    (hsecondL (by simp)) hfirst.inOrder hsecond.inOrder]
  exact (hfirst.toRearranges.append hsecond.toRearranges).arranges hmerged

theorem arranges_sortHalf (n : Nat) (hl : l ⊆ L) : Arranges cmp L l (sortHalf (strictly cmp) n l) := by
  match l with
  | [] | [_] | [_, _] | [_, _, _] => exact arranges_stableSort h hl
  | w :: x :: y :: z :: l =>
    rw [sortHalf]
    split
    · obtain ⟨hfour, hrest⟩ := List.append_subset.1 (show [w, x, y, z] ++ l ⊆ L from hl)
      have harranged := arranges_sortFour h hfour
      exact (harranged.toRearranges.append (.refl l)).arranges
        (arranges_insertEach h (harranged.subset hfour) harranged.inOrder hrest)
    · exact arranges_stableSort h hl

theorem sorts_smallSort : Sorts cmp L (smallSort (strictly cmp)) := by
  intro l hl
  rw [smallSort]
  split
  · rename_i hshort
    exact ⟨l, rfl, .refl l, inOrder_of_length_le_one (by omega)⟩
  · have hfront := arranges_sortHalf h l.length
      (List.Subset.trans (List.take_subset (l.length / 2) l) hl)
    have hback := arranges_sortHalf h l.length
      (List.Subset.trans (List.drop_subset (l.length / 2) l) hl)
    have hfrontL := hfront.subset (List.Subset.trans (List.take_subset _ l) hl)
    have hbackL := hback.subset (List.Subset.trans (List.drop_subset _ l) hl)
    have hlengths := hfront.perm.length_eq
    have hlengths' := hback.perm.length_eq
    rw [List.length_take] at hlengths
    rw [List.length_drop] at hlengths'
    obtain ⟨m, hm, hmerged⟩ := exists_mergeFromBothEnds h hfrontL hbackL hfront.inOrder hback.inOrder
      (by omega) (by omega)
    have hhalves := hfront.toRearranges.append hback.toRearranges
    rw [List.take_append_drop] at hhalves
    exact ⟨m, hm, hhalves.arranges hmerged⟩

end Few

/-! ## Stretches in order -/

theorem splitWhile_append (related : α → α → Bool) (l : List α) :
    (splitWhile related l).1 ++ (splitWhile related l).2 = l := by
  fun_induction splitWhile related l with
  | case1 x y l hxy run rest hrun ih => simpa [hrun] using ih
  | case2 x y l hxy => rfl
  | case3 l => simp

theorem splitWhile_cons (related : α → α → Bool) (x : α) (l : List α) :
    ∃ run, (splitWhile related (x :: l)).1 = x :: run := by
  cases l with
  | nil => exact ⟨[], rfl⟩
  | cons y l =>
    rw [splitWhile]
    split
    · exact ⟨_, rfl⟩
    · exact ⟨[], rfl⟩

/-- Elements of which neighbours are related are all related, by a transitive relation. -/
theorem pairwise_splitWhile {related : α → α → Bool} {R : α → α → Prop}
    (hR : ∀ a ∈ L, ∀ b ∈ L, related a b = true → R a b)
    (htrans : ∀ a ∈ L, ∀ b ∈ L, ∀ c ∈ L, R a b → R b c → R a c) (hl : l ⊆ L) :
    (splitWhile related l).1.Pairwise R := by
  fun_induction splitWhile related l with
  | case1 x y l hxy run rest hrun ih =>
    have hrest := ih (List.subset_of_cons_subset hl)
    have happend := splitWhile_append related (y :: l)
    obtain ⟨run, hcons⟩ := splitWhile_cons related y l
    rw [hrun] at happend hcons hrest
    obtain rfl := hcons
    have hrunL : y :: run ⊆ L := fun a ha =>
      hl (.tail x (happend ▸ List.mem_append_left _ ha))
    have hxL := hl List.mem_cons_self
    have hyL := hrunL List.mem_cons_self
    have hfirst := hR x hxL y hyL hxy
    refine List.pairwise_cons.2 ⟨List.forall_mem_cons.2 ⟨hfirst, fun a ha => ?_⟩, hrest⟩
    exact htrans x hxL y hyL a (hrunL (.tail y ha)) hfirst (List.rel_of_pairwise_cons hrest ha)
  | case2 x y l hxy => exact List.pairwise_singleton R x
  | case3 l hl' =>
    match l with
    | [] => exact .nil
    | [x] => exact List.pairwise_singleton R x
    | x :: y :: l => exact absurd rfl (hl' x y l)

section Stretches

variable (h : PreorderOn cmp L)

include h

theorem rearranges_reverse (hl : l ⊆ L) (hne : l.Pairwise fun a b => cmp a b ≠ .eq) :
    Rearranges cmp L l l.reverse := by
  induction l with
  | nil => exact .refl []
  | cons x l ih =>
    obtain ⟨hx, hrest⟩ := List.pairwise_cons.1 hne
    obtain ⟨hxL, hl⟩ := List.cons_subset.1 hl
    have hreversed := (ih hl hrest).cons x
    rw [List.reverse_cons]
    refine hreversed.trans (rearranges_append_comm h (l := [x]) (by simpa) (List.reverse_subset.2 hl) ?_)
    simpa using hx

/-- The part at the front is arranged, and it is there unless the list is empty. -/
theorem exists_frontRun (hl : l ⊆ L) : ∃ front, l = front ++ (frontRun (strictly cmp) l).2 ∧
    Arranges cmp L front (frontRun (strictly cmp) l).1 ∧ (l ≠ [] → front ≠ []) := by
  match l with
  | [] => exact ⟨[], rfl, ⟨.refl [], .nil⟩, id⟩
  | [x] => exact ⟨[x], rfl, ⟨.refl [x], List.pairwise_singleton _ x⟩, fun _ => nofun⟩
  | x :: y :: l =>
    have hne (related : α → α → Bool) : (splitWhile related (x :: y :: l)).1 ≠ [] := by
      obtain ⟨run, hrun⟩ := splitWhile_cons related x (y :: l)
      simp [hrun]
    have hsub (related : α → α → Bool) : (splitWhile related (x :: y :: l)).1 ⊆ L := fun a ha =>
      hl (splitWhile_append related (x :: y :: l) ▸ List.mem_append_left _ ha)
    rw [frontRun]
    split
    · -- strictly descending, so that no two elements are equal
      have hdescending := pairwise_splitWhile (R := fun a b => cmp b a = .lt)
        (fun a _ b _ hab => strictly_iff.1 hab)
        (fun a ha b hb c hc hba hcb => h.lt_of_lt_of_ne_gt hc hb ha hcb (by simp [hba])) hl
      refine ⟨_, (splitWhile_append _ _).symm, ⟨rearranges_reverse h (hsub _) ?_, ?_⟩, fun _ => hne _⟩
      · refine hdescending.imp_of_mem fun {a b} ha hb hba hab => ?_
        rw [h.eq_symm (hsub _ ha) (hsub _ hb) hab] at hba
        cases hba
      · refine List.pairwise_reverse.2 (hdescending.imp fun hba => ?_)
        simp [hba]
    · have hne_gt : ∀ a ∈ L, ∀ b ∈ L, (!strictly cmp b a) = true → cmp a b ≠ .gt :=
        fun a ha b hb hab => (h.strictly_eq_false_iff ha hb).1 (by simpa using hab)
      have hascending := pairwise_splitWhile (R := fun a b => cmp a b ≠ .gt) hne_gt h.trans hl
      exact ⟨_, (splitWhile_append _ _).symm, ⟨.refl _, hascending⟩, fun _ => hne _⟩

end Stretches

/-! ## Cutting -/

structure Run.Sound (cmp : α → α → Ordering) (L : List α) (run : Run α) : Prop where
  subset : run.elements ⊆ L
  inOrder : run.sorted = true → InOrder cmp run.elements

section Cutting

variable (h : PreorderOn cmp L)

include h

theorem exists_cut (good : Nat) (eager : Bool) {fuel : Nat} (hfuel : l.length ≤ fuel) (hl : l ⊆ L) :
    ∃ runs, cut (strictly cmp) good eager fuel l = some runs ∧ (∀ run ∈ runs, run.Sound cmp L) ∧
      Rearranges cmp L l (runs.flatMap (·.elements)) := by
  induction fuel generalizing l with
  | zero =>
    obtain rfl := List.length_eq_zero_iff.1 (Nat.le_zero.1 hfuel)
    exact ⟨[], rfl, nofun, .refl []⟩
  | succ fuel ih =>
    by_cases hnil : l = []
    · subst hnil
      exact ⟨[], rfl, nofun, .refl []⟩
    have hpos := List.length_pos_iff.2 hnil
    have hdrop {n : Nat} (hn : 0 < n) : (l.drop n).length ≤ fuel := by
      rw [List.length_drop]
      omega
    have hdropL (n : Nat) : l.drop n ⊆ L := List.Subset.trans (List.drop_subset n l) hl
    have htakeL (n : Nat) : l.take n ⊆ L := List.Subset.trans (List.take_subset n l) hl
    obtain ⟨front, hfront, harranged, hne⟩ := exists_frontRun h hl
    have hfrontL : front ⊆ L := fun a ha => hl (hfront ▸ List.mem_append_left _ ha)
    rw [cut.eq_3 _ _ _ _ _ hnil]
    simp only
    split
    · have hrest : (frontRun (strictly cmp) l).2.length ≤ fuel := by
        have hlength := congr_arg List.length hfront
        have := List.length_pos_iff.2 (hne hnil)
        rw [List.length_append] at hlength
        omega
      obtain ⟨runs, hruns, hsound, hrearranged⟩ := ih hrest fun a ha =>
        hl (hfront ▸ List.mem_append_right _ ha)
      refine ⟨_, by rw [hruns]; rfl, List.forall_mem_cons.2
        ⟨⟨harranged.subset hfrontL, fun _ => harranged.inOrder⟩, hsound⟩, ?_⟩
      have hboth := harranged.toRearranges.append hrearranged
      rw [← hfront] at hboth
      exact hboth
    · rename_i hshort
      split
      · obtain ⟨m, hm, hsorted⟩ := sorts_smallSort h _ (htakeL smallLength)
        obtain ⟨runs, hruns, hsound, hrearranged⟩ := ih (hdrop (by decide)) (hdropL smallLength)
        refine ⟨_, by rw [hm, hruns]; rfl, List.forall_mem_cons.2
          ⟨⟨hsorted.subset (htakeL smallLength), fun _ => hsorted.inOrder⟩, hsound⟩, ?_⟩
        have hboth := hsorted.toRearranges.append hrearranged
        rw [List.take_append_drop] at hboth
        exact hboth
      · obtain ⟨runs, hruns, hsound, hrearranged⟩ := ih (hdrop (by omega)) (hdropL good)
        refine ⟨⟨l.take good, false⟩ :: runs, by rw [hruns]; rfl,
          List.forall_mem_cons.2 ⟨⟨htakeL good, nofun⟩, hsound⟩, ?_⟩
        have hkept : Rearranges cmp L (l.take good) (l.take good) := .refl _
        have hboth := hkept.append hrearranged
        rw [List.take_append_drop] at hboth
        exact hboth

end Cutting

/-! ## Joining -/

section Joining

variable (h : PreorderOn cmp L) {quick : List α → Option (List α)} (hquick : Sorts cmp L quick)

include hquick

theorem Run.Sound.settle {run : Run α} (hrun : run.Sound cmp L) :
    ∃ m, run.settle quick = some m ∧ Arranges cmp L run.elements m := by
  rw [Run.settle]
  split
  · exact ⟨_, rfl, .refl _, hrun.inOrder ‹_›⟩
  · exact hquick _ hrun.subset

include h

theorem exists_join (room : Nat) {left right : Run α} (hleft : left.Sound cmp L)
    (hright : right.Sound cmp L) : ∃ run, join (strictly cmp) room quick left right = some run ∧
      run.Sound cmp L ∧ Rearranges cmp L (left.elements ++ right.elements) run.elements := by
  rw [join]
  split
  · exact ⟨_, rfl, ⟨List.append_subset.2 ⟨hleft.subset, hright.subset⟩, nofun⟩, .refl _⟩
  · obtain ⟨a, ha, hleft'⟩ := hleft.settle hquick
    obtain ⟨b, hb, hright'⟩ := hright.settle hquick
    have haL := hleft'.subset hleft.subset
    have hbL := hright'.subset hright.subset
    have hmerged : Arranges cmp L (a ++ b)
        (if a.length ≤ b.length then merge (strictly cmp) a b else mergeFromEnd (strictly cmp) a b) := by
      split
      · exact arranges_merge h haL hbL hleft'.inOrder hright'.inOrder
      · exact arranges_mergeFromEnd h haL hbL hleft'.inOrder hright'.inOrder
    refine ⟨_, by rw [ha, hb]; rfl, ⟨hmerged.subset (List.append_subset.2 ⟨haL, hbL⟩), fun _ =>
      hmerged.inOrder⟩, ?_⟩
    exact (hleft'.toRearranges.append hright'.toRearranges).trans hmerged.toRearranges

/-- The stretches on a stack and the last one make up a stable rearrangement of the list. -/
structure Piled (cmp : α → α → Ordering) (L l : List α) (stack : List (Run α × Nat)) (last : Run α) :
    Prop where
  waitingSound : ∀ waiting ∈ stack, waiting.1.Sound cmp L
  lastSound : last.Sound cmp L
  rearranges : Rearranges cmp L l ((stack.map (·.1.elements)).reverse.flatten ++ last.elements)

theorem Piled.collapse (room depth : Nat) {stack : List (Run α × Nat)} {last : Run α}
    (hpiled : Piled cmp L l stack last) : ∃ stack' last',
      collapse (strictly cmp) room quick depth stack last = some (stack', last') ∧
        Piled cmp L l stack' last' ∧ (depth = 0 → stack' = []) := by
  induction stack generalizing last with
  | nil => exact ⟨[], last, rfl, hpiled, fun _ => rfl⟩
  | cons waiting stack ih =>
    obtain ⟨run, meeting⟩ := waiting
    obtain ⟨hwaiting, hstack⟩ := List.forall_mem_cons.1 hpiled.waitingSound
    rw [DriftSort.collapse]
    split
    · obtain ⟨joined, hjoined, hsound, hrearranges⟩ := exists_join h hquick room hwaiting hpiled.lastSound
      rw [hjoined]
      refine ih ⟨hstack, hsound, hpiled.rearranges.trans ?_⟩
      simpa using (Rearranges.refl _).append hrearranges
    · exact ⟨_, _, rfl, hpiled, fun hzero => absurd (hzero ▸ Nat.zero_le meeting) ‹_›⟩

theorem Piled.joinAll (room n scanned : Nat) (runs : List (Run α))
    {stack : List (Run α × Nat)} {last : Run α} (hpiled : Piled cmp L l stack last)
    (hruns : ∀ run ∈ runs, run.Sound cmp L) : ∃ run,
      joinAll (strictly cmp) room quick n scanned stack last runs = some run ∧ run.Sound cmp L ∧
        Rearranges cmp L (l ++ runs.flatMap (·.elements)) run.elements := by
  induction runs generalizing l scanned stack last with
  | nil =>
    obtain ⟨stack', last', hcollapsed, hpiled', hempty⟩ := hpiled.collapse h hquick room 0
    obtain rfl := hempty rfl
    rw [DriftSort.joinAll, hcollapsed]
    refine ⟨last', rfl, hpiled'.lastSound, ?_⟩
    simpa using hpiled'.rearranges
  | cons next runs ih =>
    obtain ⟨hnext, hruns⟩ := List.forall_mem_cons.1 hruns
    let depth := mergeDepth n (scanned - last.length) scanned (scanned + next.length)
    obtain ⟨stack', last', hcollapsed, hpiled', -⟩ := hpiled.collapse h hquick room depth
    have hmore : Piled cmp L (l ++ next.elements) ((last', depth) :: stack') next := by
      refine ⟨List.forall_mem_cons.2 ⟨hpiled'.lastSound, hpiled'.waitingSound⟩, hnext, ?_⟩
      simpa using hpiled'.rearranges.append (.refl next.elements)
    obtain ⟨run, hrun, hsound, hrearranges⟩ := ih (scanned + next.length) hmore hruns
    refine ⟨run, ?_, hsound, ?_⟩
    · rw [DriftSort.joinAll]
      simp only [depth] at hcollapsed
      rw [hcollapsed]
      exact hrun
    · simpa using hrearranges

theorem sorts_drift (room : Nat) (eager : Bool) :
    Sorts cmp L (drift (strictly cmp) room quick eager) := by
  intro l hl
  obtain ⟨runs, hruns, hsound, hrearranges⟩ :=
    exists_cut h (goodLength l.length) eager (Nat.le_refl l.length) hl
  rw [drift, hruns]
  cases runs with
  | nil => exact ⟨[], rfl, hrearranges, .nil⟩
  | cons first runs =>
    obtain ⟨hfirst, hothers⟩ := List.forall_mem_cons.1 hsound
    have hpiled : Piled cmp L first.elements [] first := ⟨nofun, hfirst, .refl _⟩
    obtain ⟨run, hrun, hrunSound, hjoined⟩ :=
      hpiled.joinAll h hquick room l.length first.length runs hothers
    obtain ⟨m, hm, harranged⟩ := hrunSound.settle hquick
    refine ⟨m, ?_, (hrearranges.trans hjoined).arranges harranged⟩
    change (joinAll (strictly cmp) room quick l.length first.length [] first runs).bind
      (·.settle quick) = some m
    rw [hrun]
    exact hm

end Joining

/-! ## Partition -/

/-- What is kept of a list that leaves out one element which is not kept. -/
theorem filter_of_getElem? {i : Nat} {x : α} (hx : l[i]? = some x) {p : α → Bool} (hp : p x = false) :
    (l.take i ++ l.drop (i + 1)).filter p = l.filter p := by
  obtain ⟨hi, rfl⟩ := List.getElem?_eq_some_iff.1 hx
  conv_rhs => rw [← List.take_append_drop i l, List.drop_eq_getElem_cons hi]
  rw [List.filter_append, List.filter_append, List.filter_cons_of_neg (by simp [hp])]

/-- What is kept of a list, with one element put in that is kept. -/
theorem filter_cons_of_getElem? {i : Nat} {x : α} (hx : l[i]? = some x) {p : α → Bool}
    (hp : p x = true) :
    (l.take i).filter p ++ x :: (l.drop (i + 1)).filter p = l.filter p := by
  obtain ⟨hi, rfl⟩ := List.getElem?_eq_some_iff.1 hx
  conv_rhs => rw [← List.take_append_drop i l, List.drop_eq_getElem_cons hi]
  rw [List.filter_append, List.filter_cons_of_pos hp]

section Partition

variable (h : PreorderOn cmp L) {pivot : α}

include h

theorem strictly_self (hp : pivot ∈ L) : strictly cmp pivot pivot = false :=
  (h.strictly_eq_false_iff hp hp).2 (by simp [h.compare_self hp])

/-- A list is arranged part by part if everything in the one part is strictly before everything in the
other. -/
theorem Arranges.of_parts (hl : l ⊆ L) {p : α → Bool} {m m' : List α}
    (hlt : ∀ a ∈ l, ∀ b ∈ l, p a = true → p b = false → cmp a b = .lt)
    (hm : Arranges cmp L (l.filter p) m) (hm' : Arranges cmp L (l.filter (!p ·)) m') :
    Arranges cmp L l (m ++ m') := by
  have hparts := rearranges_filter h hl (p := p) fun a ha b hb hpa hpb => by simp [hlt a ha b hb hpa hpb]
  refine hparts.arranges (hm.append hm' fun a ha b hb => ?_)
  rw [List.mem_filter] at ha hb
  simp [hlt a ha.1 b hb.1 ha.2 (by simpa using hb.2)]

/-- The elements that equal the pivot or are before it, if none is before it. -/
theorem arranges_filter_pivot (hl : l ⊆ L) (hp : pivot ∈ L) (hleast : ∀ a ∈ l, cmp pivot a ≠ .gt) :
    Arranges cmp L (l.filter (!strictly cmp pivot ·)) (l.filter (!strictly cmp pivot ·)) := by
  refine ⟨.refl _, List.Pairwise.imp_of_mem (R := fun _ _ => True) (fun {a b} ha hb _ => ?_)
    (List.pairwise_of_forall fun _ _ => trivial)⟩
  rw [List.mem_filter] at ha hb
  refine h.trans a (hl ha.1) pivot hp b (hl hb.1) ?_ (hleast b hb.1)
  exact (h.strictly_eq_false_iff (hl ha.1) hp).1 (by simpa using ha.2)

/-- No element is before a pivot that is not behind the ancestor, or that no element is before. -/
theorem pivot_least (hl : l ⊆ L) (hp : pivot ∈ L) {ancestor : Option α}
    (hancestor : ∀ a ∈ ancestor, a ∈ L ∧ ∀ x ∈ l, cmp a x ≠ .gt)
    (hequal : (ancestor.any (!strictly cmp · pivot) ||
      (l.filter (strictly cmp · pivot)).isEmpty) = true) :
    ∀ a ∈ l, cmp pivot a ≠ .gt := by
  intro x hx
  rcases Bool.or_eq_true_iff.1 hequal with hany | hnone
  · cases ancestor with
    | none => cases hany
    | some a =>
      obtain ⟨ha, hbehind⟩ := hancestor a rfl
      have hpa : cmp pivot a ≠ .gt := (h.strictly_eq_false_iff hp ha).1 (by simpa using hany)
      exact h.trans pivot hp a ha x (hl hx) hpa (hbehind x hx)
  · refine (h.strictly_eq_false_iff hp (hl hx)).1 (Bool.eq_false_iff.2 ?_)
    exact List.filter_eq_nil_iff.1 (List.isEmpty_iff.1 hnone) x hx

theorem exists_quicksort {fallback : List α → Option (List α)} (hfallback : Sorts cmp L fallback)
    (limit : Nat) {ancestor : Option α} (hl : l ⊆ L)
    (hancestor : ∀ a ∈ ancestor, a ∈ L ∧ ∀ x ∈ l, cmp a x ≠ .gt) :
    ∃ m, quicksort (strictly cmp) fallback limit ancestor l = some m ∧ Arranges cmp L l m := by
  induction limit generalizing ancestor l with
  | zero =>
    rw [quicksort]
    split
    · exact sorts_smallSort h l hl
    · exact hfallback l hl
  | succ limit ih =>
    rw [quicksort]
    split
    · exact sorts_smallSort h l hl
    simp only
    cases hpivot : l[choosePivot (strictly cmp) l]? with
    | none => exact hfallback l hl
    | some pivot =>
      have hp := hl (List.mem_of_getElem? hpivot)
      have hself := strictly_self h hp
      simp only [filter_of_getElem? hpivot (p := (strictly cmp · pivot)) hself,
        filter_of_getElem? hpivot (p := (strictly cmp pivot ·)) hself,
        filter_cons_of_getElem? hpivot (p := fun a => !strictly cmp a pivot) (by simp [hself]),
        filter_cons_of_getElem? hpivot (p := fun a => !strictly cmp pivot a) (by simp [hself])]
      have hsub (p : α → Bool) : l.filter p ⊆ L := List.Subset.trans List.filter_sublist.subset hl
      split
      · rename_i hequal
        have hleast := pivot_least h hl hp hancestor hequal
        have hnone : ∀ a ∈ (none : Option α), a ∈ L ∧
            ∀ x ∈ l.filter (strictly cmp pivot ·), cmp a x ≠ .gt := nofun
        obtain ⟨m, hm, harranged⟩ := ih (hsub (strictly cmp pivot)) hnone
        refine ⟨_, by rw [hm]; rfl, Arranges.of_parts h hl (fun a ha b hb hpa hpb => ?_)
          (arranges_filter_pivot h hl hp hleast) (by simpa using harranged)⟩
        refine h.lt_of_ne_gt_of_lt (hl ha) hp (hl hb) ?_ (strictly_iff.1 (by simpa using hpb))
        exact (h.strictly_eq_false_iff (hl ha) hp).1 (by simpa using hpa)
      · have hbehind : ∀ a ∈ some pivot, a ∈ L ∧
            ∀ x ∈ l.filter (fun x => !strictly cmp x pivot), cmp a x ≠ .gt := by
          rintro _ ⟨⟩
          refine ⟨hp, fun x hx => ?_⟩
          rw [List.mem_filter] at hx
          exact (h.strictly_eq_false_iff hp (hl hx.1)).1 (by simpa using hx.2)
        obtain ⟨rest, hrest, hrest'⟩ := ih (hsub _) hbehind
        obtain ⟨smaller, hsmaller, hsmaller'⟩ := ih (hsub (strictly cmp · pivot)) fun a ha =>
          ⟨(hancestor a ha).1, fun x hx => (hancestor a ha).2 x (List.mem_filter.1 hx).1⟩
        refine ⟨_, by rw [hrest, hsmaller]; rfl, Arranges.of_parts h hl (fun a ha b hb hpa hpb => ?_)
          hsmaller' hrest'⟩
        refine h.lt_of_lt_of_ne_gt (hl ha) hp (hl hb) (strictly_iff.1 hpa) ?_
        exact (h.strictly_eq_false_iff hp (hl hb)).1 hpb

end Partition

/-! ## The sort -/

theorem sorts_sort (h : PreorderOn cmp L) (size : Nat) : Sorts cmp L (sort (strictly cmp) size) := by
  intro l hl
  rw [sort]
  split
  · exact ⟨_, rfl, arranges_stableSort h hl⟩
  · have hfallback := sorts_drift h (sorts_smallSort h) (roomFor size l.length) true
    refine sorts_drift h (fun l hl => ?_) _ _ l hl
    exact exists_quicksort h hfallback _ hl nofun

/-- With a preorder on the elements of the list the sort comes to the same as insertion. -/
theorem sort_eq (h : PreorderOn cmp l) (size : Nat) :
    sort (fun a b => cmp a b == .lt) size l = some (stableSort (fun a b => cmp a b == .lt) l) := by
  obtain ⟨m, hm, harranged⟩ := sorts_sort h size l (List.Subset.refl l)
  have hstable := arranges_stableSort h (List.Subset.refl l)
  exact hm.trans (congr_arg some (harranged.eq h (List.Subset.refl l) hstable))

/-- The sort gives up only on a long list on whose elements the comparison is no preorder. -/
theorem not_preorderOn_of_sort {size : Nat} (hnone : sort (fun a b => cmp a b == .lt) size l = none) :
    20 < l.length ∧ ¬PreorderOn cmp l := by
  constructor
  · rw [sort] at hnone
    split at hnone
    · cases hnone
    · omega
  · intro h
    rw [sort_eq h size] at hnone
    cases hnone

end GraphTraversal.DriftSort
