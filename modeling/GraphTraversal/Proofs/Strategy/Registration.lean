import GraphTraversal.Proofs.Strategy.Ordering

/-! # Registration and the order of a set

Of strategies that could come next, the one registered first should.  Each addition sorts the order that
it finds, so the time of registration counts only as far as that order still shows it: the new strategy
goes behind all that need not wait for it, and those that must wait go behind it in the order in which
they stood.
-/

namespace GraphTraversal

namespace Strategy

/-! ## One way to place -/

theorem Ready.subset {l l' : List Strategy} {t : Strategy} (h : Ready l t) (hl : l' ⊆ l) :
    Ready l' t :=
  fun s hs => h s (hl hs)

/-- There is one first strategy that is ready. -/
theorem first_ready_unique {before after before' after' : List Strategy} {s s' : Strategy}
    (hl : before ++ s :: after = before' ++ s' :: after') (ready : Ready (before ++ s :: after) s)
    (first : ∀ t ∈ before, ¬Ready (before ++ s :: after) t) (ready' : Ready (before ++ s :: after) s')
    (first' : ∀ t ∈ before', ¬Ready (before ++ s :: after) t) :
    before = before' ∧ s = s' ∧ after = after' := by
  obtain ⟨l, rfl, h⟩ | ⟨l, rfl, h⟩ := List.append_eq_append_iff.1 hl
  · cases l with
    | nil =>
      cases h
      exact ⟨(List.append_nil _).symm, rfl, rfl⟩
    | cons t l =>
      cases h
      exact absurd ready (first' s (by simp))
  · cases l with
    | nil =>
      cases h
      exact ⟨List.append_nil _, rfl, rfl⟩
    | cons t l =>
      cases h
      exact absurd ready' (first s' (by simp))

/-- Strategies are placed in one way only. -/
theorem Placed.unique {waiting placed stuck placed' stuck' : List Strategy}
    (h : Placed waiting placed stuck) (h' : Placed waiting placed' stuck') :
    placed = placed' ∧ stuck = stuck' := by
  induction h generalizing placed' stuck' with
  | stuck hnone =>
    cases h' with
    | stuck => exact ⟨rfl, rfl⟩
    | place ready => exact absurd ready (hnone _ (by simp))
  | @place before after placed stuck s ready first _ ih =>
    generalize hwaiting : before ++ s :: after = waiting at h'
    cases h' with
    | stuck hnone => exact absurd (hwaiting ▸ ready) (hnone s (by simp [← hwaiting]))
    | place ready' first' rest' =>
      rw [← hwaiting] at ready' first'
      obtain ⟨rfl, rfl, rfl⟩ := first_ready_unique hwaiting ready first ready' first'
      obtain ⟨rfl, rfl⟩ := ih rest'
      exact ⟨rfl, rfl⟩

theorem InOrder.ready_head {s : Strategy} {l : List Strategy} (h : InOrder (s :: l)) :
    Ready (s :: l) s := by
  intro t ht hts
  obtain ⟨i, hi, rfl⟩ := List.getElem_of_mem ht
  exact Nat.not_lt_zero _ (h i 0 hi (Nat.succ_pos _) hts)

/-- Strategies in order are placed as they stand. -/
theorem InOrder.placed {l : List Strategy} (h : InOrder l) : Placed l l [] := by
  induction l with
  | nil => exact .stuck fun s hs => by cases hs
  | cons s l ih =>
    have hrest : Placed ([] ++ l) l [] := ih (h.sublist (List.sublist_cons_self s l))
    exact .place h.ready_head (fun t ht => by cases ht) hrest

theorem Cyclic.mono {l l' : List Strategy} (hl : l ⊆ l') (h : Cyclic l) : Cyclic l' := by
  obtain ⟨s, hs⟩ := h
  exact ⟨s, hs.lift id fun _ _ hd => ⟨hl hd.1, hl hd.2.1, hd.2.2⟩⟩

/-- Without a cycle all strategies are placed. -/
theorem exists_placed {l : List Strategy} (h : ¬Cyclic l) : ∃ order, Placed l order [] := by
  have hplaced := placeReady_placed (le_refl l.length)
  by_cases hstuck : (placeReady l.length l).2 = []
  · exact ⟨_, hstuck ▸ hplaced⟩
  · exact absurd (hplaced.cyclic hstuck) h

/-! ## The greedy order -/

/-- `s` comes next of `s` and those that are left after it: it waits for none of them, and of those that
wait for none it has the least category and, within the category, was registered first. -/
structure ComesNext (registered : List Strategy) (s : Strategy) (left : List Strategy) : Prop where
  ready : Ready (s :: left) s
  least : ∀ t ∈ left, Ready (s :: left) t → s.category.rank < t.category.rank ∨
    s.category.rank = t.category.rank ∧ [s, t].Sublist registered

structure Greedy (registered order : List Strategy) : Prop where
  perm : order.Perm registered
  next : ∀ {placed s left}, order = placed ++ s :: left → ComesNext registered s left

theorem Ready.rank_le {l : List Strategy} {s t : Strategy} (hs : Ready l s) (ht : t ∈ l) :
    s.category.rank ≤ t.category.rank :=
  Nat.le_of_not_lt fun h => hs t ht (.category h)

theorem Placed.comesNext {registered waiting order stuck : List Strategy}
    (h : Placed waiting order stuck) (hstuck : stuck = [])
    (hregistered : waiting.Sublist registered) {placed left : List Strategy} {s : Strategy}
    (hsplit : order = placed ++ s :: left) : ComesNext registered s left := by
  induction h generalizing placed with
  | stuck => simp at hsplit
  | @place before after order stuck x ready first rest ih =>
    subst hstuck
    cases placed with
    | cons _ placed =>
      cases hsplit
      exact ih rfl (((List.sublist_cons_self x after).append_left before).trans hregistered) rfl
    | nil =>
      cases hsplit
      have hperm : (s :: left).Perm (before ++ s :: after) := by
        simpa using (Placed.place ready first rest).perm
      refine ⟨ready.subset hperm.subset, fun t ht hready => ?_⟩
      have hready' := hready.subset hperm.symm.subset
      have hmem := hperm.subset (List.mem_cons_of_mem s ht)
      obtain hlt | heq := (ready.rank_le hmem).lt_or_eq
      · exact .inl hlt
      · have hafter : t ∈ after := by
          have hleft : t ∈ before ++ after := (rest.perm.subset (by simpa using ht))
          exact (List.mem_append.1 hleft).resolve_left fun hbefore => first t hbefore hready'
        have hpair : [s, t].Sublist (s :: after) := (List.singleton_sublist.2 hafter).cons_cons s
        exact .inr ⟨heq, (hpair.trans (List.sublist_append_right before _)).trans hregistered⟩

/-- Placing the first that is ready is placing greedily. -/
theorem Placed.greedy {registered order : List Strategy} (h : Placed registered order []) :
    Greedy registered order :=
  ⟨by simpa using h.perm, h.comesNext rfl (List.Sublist.refl _)⟩

theorem not_sublist_of_swapped {α : Type} {l : List α} (hl : l.Nodup) {a b : α}
    (h : [a, b].Sublist l) : ¬[b, a].Sublist l := by
  induction l with
  | nil => cases h
  | cons c l ih =>
    obtain ⟨hc, hl⟩ := List.nodup_cons.1 hl
    intro h'
    cases h with
    | cons _ h =>
      cases h' with
      | cons _ h' => exact ih hl h h'
      | cons_cons _ h' => exact hc (h.subset (by simp))
    | cons_cons _ h =>
      cases h' with
      | cons _ h' => exact hc (h'.subset (by simp))
      | cons_cons _ h' => exact hc (h.subset (by simp))

theorem placed_of_comesNext {registered waiting order : List Strategy} (hnodup : registered.Nodup)
    (hregistered : waiting.Sublist registered) (hperm : order.Perm waiting)
    (hnext : ∀ {placed s left}, order = placed ++ s :: left → ComesNext registered s left) :
    Placed waiting order [] := by
  induction order generalizing waiting with
  | nil =>
    rw [List.nil_perm.1 hperm]
    exact .stuck fun s hs => by cases hs
  | cons s order ih =>
    obtain ⟨before, after, rfl⟩ := List.append_of_mem (hperm.subset List.mem_cons_self)
    obtain ⟨ready, least⟩ : ComesNext registered s order := hnext (List.nil_append _).symm
    refine .place (ready.subset hperm.symm.subset) (fun t ht hready => ?_) (ih ?_ ?_ ?_)
    · have hpair : [t, s].Sublist registered :=
        ((List.singleton_sublist.2 ht).append (List.singleton_sublist.2 List.mem_cons_self)).trans
          hregistered
      have hleft : t ∈ order := by
        have hmem := hperm.symm.subset (List.mem_append_left (s :: after) ht)
        refine (List.mem_cons.1 hmem).resolve_left fun hts => ?_
        subst hts
        exact not_sublist_of_swapped hnodup hpair hpair
      obtain hlt | ⟨-, hpair'⟩ := least t hleft (hready.subset hperm.subset)
      · exact hready s (by simp) (.category hlt)
      · exact not_sublist_of_swapped hnodup hpair hpair'
    · exact ((List.sublist_cons_self s after).append_left before).trans hregistered
    · exact (hperm.trans List.perm_middle).cons_inv
    · rintro placed x left rfl
      exact hnext (List.cons_append ..).symm

theorem greedy_iff_placed {registered order : List Strategy} (hnodup : registered.Nodup) :
    Greedy registered order ↔ Placed registered order [] :=
  ⟨fun h => placed_of_comesNext hnodup (List.Sublist.refl _) h.perm h.next, Placed.greedy⟩

/-! ## Two parts that are placed one after the other -/

/-- What all need that satisfy `p` satisfies `p` itself; then those that do are placed as among all. -/
theorem Placed.filter {p : Strategy → Bool} {waiting order stuck : List Strategy}
    (h : Placed waiting order stuck) (hstuck : stuck = [])
    (hclosed : ∀ t ∈ waiting, p t → ∀ u ∈ waiting, u.MustPrecede t → p u) :
    Placed (waiting.filter p) (order.filter p) [] := by
  induction h with
  | stuck =>
    subst hstuck
    exact .stuck fun s hs => by cases hs
  | @place before after order stuck s ready first _ ih =>
    have hmem {t : Strategy} (ht : t ∈ before ++ after) : t ∈ before ++ s :: after := by
      simp only [List.mem_append, List.mem_cons] at ht ⊢
      tauto
    have hrest := ih hstuck fun t ht hpt u hu => hclosed t (hmem ht) hpt u (hmem hu)
    by_cases hs : p s
    · rw [List.filter_append, List.filter_cons_of_pos hs, List.filter_cons_of_pos hs]
      rw [List.filter_append] at hrest
      refine .place (ready.subset ?_) (fun t ht hready => ?_) hrest
      · simp only [List.subset_def, List.mem_append, List.mem_cons, List.mem_filter]
        tauto
      · obtain ⟨ht, hpt⟩ := List.mem_filter.1 ht
        refine first t ht fun u hu hut => hready u ?_ hut
        have hpu : p u := hclosed t (List.mem_append_left _ ht) hpt u hu hut
        simp only [List.mem_append, List.mem_cons, List.mem_filter] at hu ⊢
        tauto
    · rwa [List.filter_append, List.filter_cons_of_neg hs, List.filter_cons_of_neg hs,
        ← List.filter_append]

/-- If those that satisfy `p` wait for no other, and each other one waits for one of its kind, then the
latter are placed after the former. -/
theorem Placed.append {p : Strategy → Bool} {part first stuck extra l rest left : List Strategy}
    (h : Placed part first stuck) (hstuck : stuck = []) (hpart : l.filter p = part)
    (hfree : ∀ t ∈ l, p t → Ready (l.filter (!p ·) ++ extra) t)
    (hblocked : ∀ t ∈ l, ¬p t → ¬Ready (l.filter (!p ·) ++ extra) t)
    (hrest : Placed (l.filter (!p ·) ++ extra) rest left) :
    Placed (l ++ extra) (first ++ rest) left := by
  induction h generalizing l with
  | stuck =>
    subst hstuck
    have hnone : l.filter (!p ·) = l :=
      List.filter_eq_self.2 fun t ht => by simpa using List.filter_eq_nil_iff.1 hpart t ht
    rwa [hnone] at hrest
  | @place before after first stuck s ready hfirst _ ih =>
    obtain ⟨l₁, l₂, rfl, rfl, hl₂⟩ := List.filter_eq_append_iff.1 hpart
    obtain ⟨l₂, l₃, rfl, hnone, hs, rfl⟩ := List.filter_eq_cons_iff.1 hl₂
    have hpart' : (l₁ ++ l₂ ++ l₃).filter p = l₁.filter p ++ l₃.filter p := by
      simp [List.filter_eq_nil_iff.2 hnone]
    have hothers : (l₁ ++ (l₂ ++ s :: l₃)).filter (!p ·) = (l₁ ++ l₂ ++ l₃).filter (!p ·) := by
      simp [hs]
    rw [hothers] at hfree hblocked hrest
    have hmem {t : Strategy} (ht : t ∈ l₁ ++ l₂ ++ l₃) : t ∈ l₁ ++ (l₂ ++ s :: l₃) := by
      simp only [List.mem_append, List.mem_cons] at ht ⊢
      tauto
    have hrest' : Placed (l₁ ++ l₂ ++ (l₃ ++ extra)) (first ++ rest) left := by
      rw [← List.append_assoc]
      exact ih hstuck hpart' (fun t ht => hfree t (hmem ht)) (fun t ht => hblocked t (hmem ht)) hrest
    have hwaiting : l₁ ++ (l₂ ++ s :: l₃) ++ extra = l₁ ++ l₂ ++ s :: (l₃ ++ extra) := by simp
    rw [hwaiting]
    refine .place (fun u hu => ?_) (fun t ht hready => ?_) hrest'
    · by_cases hpu : u ∈ l₁.filter p ++ s :: l₃.filter p
      · exact ready u hpu
      · refine hfree s (by simp) hs u ?_
        simp only [List.mem_append, List.mem_cons, List.mem_filter] at hu hpu ⊢
        have hu₂ := hnone u
        cases hp : p u <;> simp only [hp] at hpu hu₂ ⊢ <;> tauto
    · by_cases hpt : p t
      · have ht₁ : t ∈ l₁ := (List.mem_append.1 ht).resolve_right fun ht₂ => hnone t ht₂ hpt
        refine hfirst t (List.mem_filter.2 ⟨ht₁, hpt⟩) (hready.subset ?_)
        simp only [List.subset_def, List.mem_append, List.mem_cons, List.mem_filter]
        tauto
      · refine hblocked t (hmem (List.mem_append_left l₃ ht)) hpt (hready.subset ?_)
        simp only [List.subset_def, List.mem_append, List.mem_cons, List.mem_filter]
        tauto

/-! ## Those that wait for a newcomer -/

/-- The strategies of a list in order that have to wait for one of `held`, be it for the sake of others
that wait. -/
def waitingFor (held : List Strategy) : List Strategy → List Strategy
  | [] => []
  | t :: l =>
    if held.any (·.precedes t) then t :: waitingFor (held ++ [t]) l else waitingFor held l

def freeOf (held : List Strategy) : List Strategy → List Strategy
  | [] => []
  | t :: l => if held.any (·.precedes t) then freeOf (held ++ [t]) l else t :: freeOf held l

theorem any_precedes_iff {held : List Strategy} {t : Strategy} :
    held.any (·.precedes t) ↔ ¬Ready held t := by
  simp [Ready, ← precedes_iff]

theorem waitingFor_sublist (held l : List Strategy) : (waitingFor held l).Sublist l := by
  induction l generalizing held with
  | nil => exact List.Sublist.refl _
  | cons t l ih =>
    rw [waitingFor]
    split
    · exact (ih _).cons_cons t
    · exact (ih _).cons t

theorem freeOf_sublist (held l : List Strategy) : (freeOf held l).Sublist l := by
  induction l generalizing held with
  | nil => exact List.Sublist.refl _
  | cons t l ih =>
    rw [freeOf]
    split
    · exact (ih _).cons t
    · exact (ih _).cons_cons t

theorem perm_freeOf_waitingFor (held l : List Strategy) :
    (freeOf held l ++ waitingFor held l).Perm l := by
  induction l generalizing held with
  | nil => exact .refl _
  | cons t l ih =>
    rw [freeOf, waitingFor]
    split
    · exact List.perm_middle.trans ((ih _).cons t)
    · exact (ih held).cons t

/-- A strategy waits for one of those held or for another one that waits. -/
theorem not_ready_of_mem_waitingFor {held l : List Strategy} {t : Strategy}
    (ht : t ∈ waitingFor held l) : ¬Ready (held ++ waitingFor held l) t := by
  induction l generalizing held with
  | nil => cases ht
  | cons x l ih =>
    rw [waitingFor] at ht ⊢
    split at ht
    · rename_i hx
      rw [if_pos hx, List.append_cons]
      obtain rfl | ht := List.mem_cons.1 ht
      · exact fun h => any_precedes_iff.1 hx (h.subset (by simp))
      · exact ih ht
    · rename_i hx
      rw [if_neg hx]
      exact ih ht

theorem ready_of_mem_freeOf {held l : List Strategy} (hl : InOrder l) {t : Strategy}
    (ht : t ∈ freeOf held l) : Ready (held ++ waitingFor held l) t := by
  induction l generalizing held with
  | nil => cases ht
  | cons x l ih =>
    have hl' := hl.sublist (List.sublist_cons_self x l)
    rw [freeOf] at ht
    rw [waitingFor]
    split at ht
    · rename_i hx
      rw [if_pos hx, List.append_cons]
      exact ih hl' ht
    · rename_i hx
      rw [if_neg hx]
      obtain rfl | ht := List.mem_cons.1 ht
      · intro u hu
        obtain hu | hu := List.mem_append.1 hu
        · exact not_not.1 (any_precedes_iff.not.1 hx) u hu
        · exact hl.ready_head u (List.mem_cons_of_mem _ ((waitingFor_sublist held l).subset hu))
      · exact ih hl' ht

end Strategy

namespace StrategySet

variable {set set' : StrategySet} {s : Strategy}

/-- The strategies of a set that have to wait for a newcomer, in the order of the set. -/
def heldBy (set : StrategySet) (s : Strategy) : List Strategy := Strategy.waitingFor [s] set.members

def holds (set : StrategySet) (s t : Strategy) : Bool := t.name ∈ (set.heldBy s).map (·.name)

theorem holds_iff (hset : set.Valid) {t : Strategy} (ht : t ∈ set.members) :
    set.holds s t ↔ t ∈ set.heldBy s := by
  rw [holds, decide_eq_true_iff, List.mem_map]
  constructor
  · rintro ⟨u, hu, hname⟩
    have hmem := (Strategy.waitingFor_sublist [s] set.members).subset hu
    exact List.inj_on_of_nodup_map hset.names hmem ht hname ▸ hu
  · exact fun h => ⟨t, h, rfl⟩

theorem filter_eq_of_sublist {p : Strategy → Bool} {l l' : List Strategy} (hl : l'.Sublist l)
    (hnodup : l.Nodup) (hp : ∀ t ∈ l, p t ↔ t ∈ l') : l.filter p = l' := by
  induction hl with
  | slnil => rfl
  | cons t hl ih =>
    obtain ⟨ht, hnodup⟩ := List.nodup_cons.1 hnodup
    have hpt : ¬p t := fun h => ht (hl.subset ((hp t List.mem_cons_self).1 h))
    rw [List.filter_cons_of_neg hpt]
    exact ih hnodup fun u hu => hp u (List.mem_cons_of_mem t hu)
  | @cons_cons l' l t hl ih =>
    obtain ⟨ht, hnodup⟩ := List.nodup_cons.1 hnodup
    rw [List.filter_cons_of_pos ((hp t List.mem_cons_self).2 List.mem_cons_self)]
    refine congr_arg (t :: ·) (ih hnodup fun u hu => (hp u (List.mem_cons_of_mem t hu)).trans ?_)
    exact ⟨fun h => (List.mem_cons.1 h).resolve_left fun h => ht (h ▸ hu), List.mem_cons_of_mem t⟩

theorem filter_holds (hset : set.Valid) : set.members.filter (set.holds s) = set.heldBy s :=
  filter_eq_of_sublist (Strategy.waitingFor_sublist [s] set.members) (List.Nodup.of_map _ hset.names)
    fun _ => holds_iff hset

theorem filter_not_holds (hset : set.Valid) :
    set.members.filter (!set.holds s ·) = Strategy.freeOf [s] set.members := by
  have hperm := Strategy.perm_freeOf_waitingFor [s] set.members
  have hnodup := List.Nodup.of_map _ hset.names
  refine filter_eq_of_sublist (Strategy.freeOf_sublist [s] set.members) hnodup fun t ht => ?_
  rw [Bool.not_eq_true', ← Bool.not_eq_true, holds_iff hset ht]
  have hdisjoint := (List.nodup_append.1 (hperm.nodup_iff.2 hnodup)).2.2
  constructor
  · exact (List.mem_append.1 (hperm.symm.subset ht)).resolve_right
  · exact fun hfree hheld => hdisjoint t hfree t hheld rfl

theorem ready_iff_not_holds (hset : set.Valid) {t : Strategy} (ht : t ∈ set.members) :
    Strategy.Ready (s :: set.heldBy s) t ↔ !set.holds s t := by
  constructor
  · intro hready
    rw [Bool.not_eq_true', ← Bool.not_eq_true, holds_iff hset ht]
    exact fun hheld => Strategy.not_ready_of_mem_waitingFor hheld hready
  · intro hfree
    refine @Strategy.ready_of_mem_freeOf [s] set.members hset.inOrder t ?_
    rw [← filter_not_holds hset]
    exact List.mem_filter.2 ⟨ht, hfree⟩

/-- Those that a newcomer holds up, once it has joined, in any order of the strategies. -/
theorem mem_held_concat {l : List Strategy} (hset : set.Valid) (hl : l.Perm set.members)
    {t : Strategy} :
    t ∈ l.filter (set.holds s) ++ [s] ↔ t ∈ s :: set.heldBy s := by
  rw [List.mem_append, List.mem_singleton, List.mem_cons, or_comm, ← filter_holds hset,
    (hl.filter _).mem_iff]

/-- Those that need not wait for a newcomer are placed first, and then it and those that it holds up. -/
theorem placed_join {l rest stuck : List Strategy} (hset : set.Valid) (hl : l.Perm set.members)
    (hfirst : Strategy.Placed (l.filter (!set.holds s ·)) (Strategy.freeOf [s] set.members) [])
    (hrest : Strategy.Placed (l.filter (set.holds s) ++ [s]) rest stuck) :
    Strategy.Placed (l ++ [s]) (Strategy.freeOf [s] set.members ++ rest) stuck := by
  have hready {t : Strategy} (ht : t ∈ l) :
      Strategy.Ready (l.filter (set.holds s) ++ [s]) t ↔ !set.holds s t := by
    rw [← ready_iff_not_holds hset (hl.subset ht)]
    exact ⟨fun h => h.subset fun u => (mem_held_concat hset hl).2,
      fun h => h.subset fun u => (mem_held_concat hset hl).1⟩
  refine hfirst.append rfl rfl (fun t ht hpt => ?_) (fun t ht hpt => ?_) (by simpa using hrest)
  · simpa using (hready ht).2 hpt
  · simpa using (hready ht).not.2 hpt

/-- Of a newcomer and those that it holds up, none but it can be ready. -/
theorem not_ready_of_holds {l : List Strategy} (hset : set.Valid) (hl : l.Perm set.members) :
    ∀ t ∈ l.filter (set.holds s), ¬Strategy.Ready (l.filter (set.holds s) ++ [s]) t := by
  intro t ht hready
  obtain ⟨ht, hholds⟩ := List.mem_filter.1 ht
  have hfree := (ready_iff_not_holds hset (hl.subset ht)).1
    (hready.subset fun u => (mem_held_concat hset hl).2)
  simp [hholds] at hfree

theorem candidates_of_fresh (hs : s.name ∉ set.names) : set.candidates s = set.members ++ [s] := by
  rw [candidates, List.filter_eq_self.2]
  intro t ht
  have hne : t.name ≠ s.name := fun heq => hs (heq ▸ List.mem_map_of_mem ht)
  simpa using hne

/-- A newcomer goes behind all that need not wait for it, and those that must wait go behind it; apart
from that the order stays. -/
theorem members_add (hset : set.Valid) (hs : s.name ∉ set.names) (h : set.add s = .ok set') :
    set'.members = Strategy.freeOf [s] set.members ++ s :: set.heldBy s := by
  have hadd := placed_of_add h
  rw [candidates_of_fresh hs] at hadd
  have hfirst : Strategy.Placed (set.members.filter (!set.holds s ·))
      (Strategy.freeOf [s] set.members) [] := by
    rw [filter_not_holds hset]
    exact (hset.inOrder.sublist (Strategy.freeOf_sublist [s] set.members)).placed
  have hlater : Strategy.Placed (set.members.filter (set.holds s) ++ []) (set.heldBy s) [] := by
    rw [List.append_nil, filter_holds hset]
    exact (hset.inOrder.sublist (Strategy.waitingFor_sublist [s] set.members)).placed
  have hblocked := not_ready_of_holds (s := s) hset (.refl _)
  have hready : Strategy.Ready (set.members.filter (set.holds s) ++ [s]) s := by
    by_contra hnot
    -- nothing would be ready then, and the set would have refused the newcomer
    have hstuck := placed_join hset (.refl _) hfirst (.stuck fun t ht => ?_)
    · have hnone := (hadd.unique hstuck).2
      simp at hnone
    · obtain ht | ht := List.mem_append.1 ht
      · exact hblocked t ht
      · exact List.mem_singleton.1 ht ▸ hnot
  exact (hadd.unique (placed_join hset (.refl _) hfirst (.place hready hblocked hlater))).1

/-! ## A history of additions -/

/-- A newcomer leaves the order greedy exactly if those that it holds up are in greedy order among
themselves. -/
theorem placed_add_iff {registered : List Strategy} (hset : set.Valid)
    (hplaced : Strategy.Placed registered set.members []) (hs : s.name ∉ set.names)
    (h : set.add s = .ok set') :
    Strategy.Placed (registered ++ [s]) set'.members [] ↔
      Strategy.Placed (registered.filter (set.holds s)) (set.heldBy s) [] := by
  have hperm : registered.Perm set.members := by simpa using hplaced.perm.symm
  have horder := members_add hset hs h
  have hready : Strategy.Ready (registered.filter (set.holds s) ++ [s]) s := by
    have hvalid := (hset.add h).inOrder
    rw [horder] at hvalid
    have hhead := (hvalid.sublist (List.sublist_append_right _ _)).ready_head
    exact hhead.subset fun u => (mem_held_concat hset hperm).1
  have hfirst := hplaced.filter (p := (!set.holds s ·)) rfl fun t ht hpt u hu hut => by
    by_contra hpu
    rw [Bool.not_eq_true', Bool.not_eq_false, holds_iff hset (hperm.subset hu)] at hpu
    exact (ready_iff_not_holds hset (hperm.subset ht)).2 hpt u (List.mem_cons_of_mem s hpu) hut
  rw [filter_not_holds hset] at hfirst
  have hjoin {order : List Strategy}
      (h : Strategy.Placed (registered.filter (set.holds s)) order []) :
      Strategy.Placed (registered ++ [s]) (Strategy.freeOf [s] set.members ++ s :: order) [] :=
    placed_join hset hperm hfirst
      (.place hready (not_ready_of_holds hset hperm) (by rwa [List.append_nil]))
  rw [horder]
  refine ⟨fun hall => ?_, hjoin⟩
  have hsub : registered.filter (set.holds s) ⊆ registered ++ [s] :=
    fun t ht => List.mem_append_left _ (List.mem_of_mem_filter ht)
  obtain ⟨order, hheld⟩ := Strategy.exists_placed fun hcycle => hall.not_cyclic (hcycle.mono hsub)
  have horder' := (hall.unique (hjoin hheld)).1
  rw [List.append_cancel_left_eq, List.cons.injEq] at horder'
  rwa [horder'.2]

def addAll (l : List Strategy) : Except Error StrategySet := l.foldlM add empty

theorem addAll_concat (l : List Strategy) (s : Strategy) :
    addAll (l ++ [s]) = (addAll l).bind (·.add s) := by
  simp only [addAll, List.foldlM_append, List.foldlM_cons, List.foldlM_nil]
  cases l.foldlM add empty with
  | error e => rfl
  | ok set => cases h : set.add s <;> simp [h, bind, Except.bind, pure, Except.pure]

theorem addAll_concat_ok {l : List Strategy} (h : addAll (l ++ [s]) = .ok set') :
    ∃ set, addAll l = .ok set ∧ set.add s = .ok set' := by
  rw [addAll_concat] at h
  exact Except.exists_of_bind h

theorem fresh_of_perm {l : List Strategy} (hnames : ((l ++ [s]).map (·.name)).Nodup)
    (hperm : set.members.Perm l) : s.name ∉ set.names := by
  rw [List.map_append, List.nodup_append] at hnames
  intro hmem
  exact hnames.2.2 _ ((hperm.map _).subset hmem) s.name (List.mem_singleton.2 rfl) rfl

/-- Additions of distinct names put all those strategies into the set. -/
theorem valid_addAll {l : List Strategy} (hnames : (l.map (·.name)).Nodup)
    (h : addAll l = .ok set) : set.Valid ∧ set.members.Perm l := by
  induction l using List.reverseRecOn generalizing set with
  | nil =>
    cases h
    exact ⟨.empty, .refl _⟩
  | append_singleton l s ih =>
    obtain ⟨set₀, hset₀, hadd⟩ := addAll_concat_ok h
    obtain ⟨hvalid, hperm⟩ := ih (hnames.sublist ((List.sublist_append_left l [s]).map _)) hset₀
    refine ⟨hvalid.add hadd, (perm_of_add hadd).trans ?_⟩
    rw [candidates_of_fresh (fresh_of_perm hnames hperm)]
    exact hperm.append_right [s]

/-- Every set along the way is in greedy order of registration exactly if, whenever a strategy joins,
those that have to wait for it stand in greedy order among themselves. -/
theorem registration_order_iff {l : List Strategy} (hnames : (l.map (·.name)).Nodup)
    (hadds : addAll l = .ok set) :
    (∀ r set, r <+: l → addAll r = .ok set → Strategy.Greedy r set.members) ↔
      ∀ r s set, r ++ [s] <+: l → addAll r = .ok set →
        Strategy.Greedy (r.filter (set.holds s)) (set.heldBy s) := by
  induction l using List.reverseRecOn generalizing set with
  | nil =>
    refine iff_of_true (fun r set hr hset => ?_) fun r s set hr => by simp at hr
    rw [List.prefix_nil.1 hr] at hset ⊢
    cases hset
    exact (Strategy.InOrder.nil.placed).greedy
  | append_singleton l s ih =>
    obtain ⟨set₀, hset₀, hadd⟩ := addAll_concat_ok hadds
    have hnames' : (l.map (·.name)).Nodup :=
      hnames.sublist ((List.sublist_append_left l [s]).map _)
    obtain ⟨hvalid, hperm⟩ := valid_addAll hnames' hset₀
    -- the last addition on its own, behind a history that is greedy
    have hlast (hgreedy : Strategy.Greedy l set₀.members) :
        Strategy.Greedy (l ++ [s]) set.members ↔
          Strategy.Greedy (l.filter (set₀.holds s)) (set₀.heldBy s) := by
      rw [Strategy.greedy_iff_placed (.of_map _ hnames),
        Strategy.greedy_iff_placed ((List.Nodup.of_map _ hnames').filter _)]
      exact placed_add_iff hvalid ((Strategy.greedy_iff_placed (.of_map _ hnames')).1 hgreedy)
        (fresh_of_perm hnames hperm) hadd
    constructor
    · intro hall r t set₁ hr hset₁
      have hbefore : ∀ r set, r <+: l → addAll r = .ok set → Strategy.Greedy r set.members :=
        fun r set hr => hall r set (hr.trans (List.prefix_append l [s]))
      obtain heq | hr := List.prefix_concat_iff.1 hr
      · obtain ⟨rfl, rfl⟩ := List.append_singleton_inj.1 heq
        cases hset₀.symm.trans hset₁
        exact (hlast (hbefore r set₀ (List.prefix_refl r) hset₀)).1
          (hall _ set (List.prefix_refl _) hadds)
      · exact (ih hnames' hset₀).1 hbefore r t set₁ hr hset₁
    · intro hall r set₁ hr hset₁
      have hbefore := (ih hnames' hset₀).2 fun r t set hr =>
        hall r t set (hr.trans (List.prefix_append l [s]))
      obtain rfl | hr := List.prefix_concat_iff.1 hr
      · cases hadds.symm.trans hset₁
        exact (hlast (hbefore l set₀ (List.prefix_refl l) hset₀)).2
          (hall l s set₀ (List.prefix_refl _) hset₀)
      · exact hbefore r set₁ hr hset₁

end StrategySet

def Strategy.requiring (name : String) (others : List String) : Strategy :=
  .audit name .decoration others [] [] none

/-- A strategy that has to wait for a later one goes behind those that came in between. -/
theorem StrategySet.registration_order_late :
    let l : List Strategy := [.requiring "A" ["C"], .requiring "B" [], .requiring "C" []]
    (l.map (·.name)).Nodup ∧ (addAll l).map (·.names) = .ok ["B", "C", "A"] ∧
      ((∀ r set, r <+: l → addAll r = .ok set → Strategy.Greedy r set.members) ↔
        ∀ r s set, r ++ [s] <+: l → addAll r = .ok set →
          Strategy.Greedy (r.filter (set.holds s)) (set.heldBy s)) := by
  refine ⟨by decide, rfl, registration_order_iff (by decide) (Eq.refl (Except.ok _))⟩

/-- `B` was registered after `A`, and when `D` arrives both could come next; but `A`, which has had to
wait for `C` before, stands behind `B` by then. -/
theorem StrategySet.registration_order_lost :
    ∃ (l : List Strategy) (set : StrategySet), (l.map (·.name)).Nodup ∧ addAll l = .ok set ∧
      l.map (·.name) = ["A", "B", "C", "D"] ∧ set.names = ["C", "D", "B", "A"] ∧
        ¬Strategy.Greedy l set.members := by
  refine ⟨[.requiring "A" ["C", "D"], .requiring "B" ["D"], .requiring "C" [], .requiring "D" []], _,
    by decide, rfl, rfl, rfl, fun h => ?_⟩
  have hnext : Strategy.ComesNext _ (.requiring "B" ["D"]) [.requiring "A" ["C", "D"]] :=
    h.next (Eq.refl ([Strategy.requiring "C" [], Strategy.requiring "D" []] ++ _))
  obtain hlt | ⟨-, hpair⟩ := hnext.least _ List.mem_cons_self (Strategy.isReady_iff.1 rfl)
  · exact Nat.lt_irrefl _ hlt
  · have hnames : ["B", "A"].Sublist ["A", "B", "C", "D"] := hpair.map Strategy.name
    exact absurd hnames (by decide)

end GraphTraversal
