import GraphTraversal.Proofs.Strategy.Ordering

/-! # Whom a refusal names

Placing ends at strategies that all wait for another: those on a cycle of demands and those behind one.
To drop the ones that precede no other, again and again, leaves what lies on a cycle or between two.  A
set was in order before the newcomer came, so all cycles lead through the newcomer, and what lies between
two of them lies on one as well.
-/

namespace GraphTraversal

open Relation

namespace Strategy

/-! ## What placing leaves over -/

namespace Placed

variable {waiting placed stuck : List Strategy} (h : Placed waiting placed stuck)

include h

theorem stuck_sublist : stuck.Sublist waiting := by
  induction h with
  | stuck => exact List.Sublist.refl _
  | @place before after placed stuck s ready _ rest ih =>
    exact ih.trans ((List.sublist_cons_self s after).append_left before)

/-- What must run before a strategy that is placed is placed too. -/
theorem mem_placed_of_mustPrecede {s t : Strategy} (ht : t ∈ placed) (hs : s ∈ waiting)
    (hst : s.MustPrecede t) : s ∈ placed := by
  induction h with
  | stuck => cases ht
  | @place before after placed stuck x ready _ rest ih =>
    obtain rfl | ht := List.mem_cons.1 ht
    · exact absurd hst (ready s hs)
    · by_cases hsx : s = x
      · exact hsx ▸ List.mem_cons_self
      · refine List.mem_cons_of_mem x (ih ht ?_)
        simp only [List.mem_append, List.mem_cons] at hs ⊢
        tauto

theorem demands_of_mem_placed {s t : Strategy} (hst : TransGen (Demands waiting) s t)
    (ht : t ∈ placed) : TransGen (Demands placed) s t := by
  induction hst using TransGen.head_induction_on with
  | single hst =>
    exact .single ⟨h.mem_placed_of_mustPrecede ht hst.1 hst.2.2, ht, hst.2.2⟩
  | @head s u hsu _ ih =>
    obtain ⟨v, huv, -⟩ := TransGen.head'_iff.1 ih
    exact .head ⟨h.mem_placed_of_mustPrecede huv.1 hsu.1 hsu.2.2, huv.1, hsu.2.2⟩ ih

/-- No strategy on a cycle is ever placed. -/
theorem mem_stuck_of_cycle {s : Strategy} (hs : TransGen (Demands waiting) s s) : s ∈ stuck := by
  obtain ⟨_, hmem, -⟩ := TransGen.head'_iff.1 hs
  refine (List.mem_append.1 (h.perm.symm.subset hmem.1)).resolve_left fun hplaced => ?_
  exact h.inOrder.not_cyclic ⟨s, h.demands_of_mem_placed hs hplaced⟩

end Placed

/-! ## Dropping sinks -/

theorem dropSinks_sublist (n : Nat) (l : List Strategy) : (dropSinks n l).Sublist l := by
  induction n generalizing l with
  | zero => exact List.Sublist.refl l
  | succ n ih =>
    rw [dropSinks]
    split
    · exact List.Sublist.refl l
    · exact (ih _).trans List.filter_sublist

theorem mem_kept_iff {l : List Strategy} {s : Strategy} :
    s ∈ l.filter (fun s => l.any s.precedes) ↔ s ∈ l ∧ ∃ t ∈ l, s.MustPrecede t := by
  simp [← precedes_iff]

/-- Strategies that each precede another one of them are not dropped. -/
theorem mem_dropSinks_of_mustPrecede {P : Strategy → Prop} (n : Nat) {l : List Strategy}
    (hP : ∀ s ∈ l, P s → ∃ t ∈ l, P t ∧ s.MustPrecede t) : ∀ s ∈ l, P s → s ∈ dropSinks n l := by
  induction n generalizing l with
  | zero => exact fun s hs _ => hs
  | succ n ih =>
    intro s hs hPs
    rw [dropSinks]
    split
    · exact hs
    · have hkept {s : Strategy} (hs : s ∈ l) (hPs : P s) :
          s ∈ l.filter (fun s => l.any s.precedes) := by
        obtain ⟨t, ht, -, hst⟩ := hP s hs hPs
        exact mem_kept_iff.2 ⟨hs, t, ht, hst⟩
      refine ih (fun s hs hPs => ?_) s (hkept hs hPs) hPs
      obtain ⟨t, ht, hPt, hst⟩ := hP s (List.mem_of_mem_filter hs) hPs
      exact ⟨t, hkept ht hPt, hPt, hst⟩

/-- With bound enough, each strategy that is left precedes another one that is. -/
theorem exists_mustPrecede_of_mem_dropSinks {n : Nat} {l : List Strategy} (hn : l.length ≤ n) :
    ∀ s ∈ dropSinks n l, ∃ t ∈ dropSinks n l, s.MustPrecede t := by
  induction n generalizing l with
  | zero =>
    rw [List.eq_nil_of_length_eq_zero (Nat.le_zero.1 hn)]
    exact fun s hs => by cases hs
  | succ n ih =>
    rw [dropSinks]
    split
    · rename_i hlength
      intro s hs
      have hsame := List.filter_sublist.eq_of_length hlength
      rw [← hsame] at hs
      exact (mem_kept_iff.1 hs).2
    · rename_i hlength
      have hle : (l.filter fun s => l.any s.precedes).length ≤ l.length := List.length_filter_le _ _
      exact ih (by omega)

/-! ## A newcomer to a list in order -/

section Newcomer

variable {old : List Strategy} {s : Strategy}

/-- Where demands lead, they lead by way of the newcomer or could do without it. -/
theorem demands_concat {t u : Strategy} (h : TransGen (Demands (old ++ [s])) t u) :
    TransGen (Demands old) t u ∨
      ReflTransGen (Demands (old ++ [s])) t s ∧ ReflTransGen (Demands (old ++ [s])) s u := by
  have hmem {x : Strategy} (hx : x ∈ old ++ [s]) : x ∈ old ∨ x = s := by simpa using hx
  induction h with
  | @single u htu =>
    obtain ht | rfl := hmem htu.1
    · obtain hu | rfl := hmem htu.2.1
      · exact .inl (.single ⟨ht, hu, htu.2.2⟩)
      · exact .inr ⟨.single htu, .refl⟩
    · exact .inr ⟨.refl, .single htu⟩
  | @tail u v htu huv ih =>
    obtain ih | ⟨hts, hsu⟩ := ih
    · obtain ⟨w, -, hwu⟩ := TransGen.tail'_iff.1 ih
      obtain hv | rfl := hmem huv.2.1
      · exact .inl (ih.tail ⟨hwu.2.1, hv, huv.2.2⟩)
      · exact .inr ⟨(htu.tail huv).to_reflTransGen, .refl⟩
    · exact .inr ⟨hts, hsu.tail huv⟩

theorem reaches_newcomer (hold : ¬Cyclic old) {t : Strategy}
    (h : TransGen (Demands (old ++ [s])) t t) : ReflTransGen (Demands (old ++ [s])) t s ∧
      ReflTransGen (Demands (old ++ [s])) s t :=
  (demands_concat h).resolve_left fun hcycle => hold ⟨t, hcycle⟩

/-- What is left of those that could not be placed are the strategies on cycles. -/
theorem mem_dropSinks_iff (hold : ¬Cyclic old) {placed stuck : List Strategy}
    (h : Placed (old ++ [s]) placed stuck) {t : Strategy} :
    t ∈ dropSinks stuck.length stuck ↔ TransGen (Demands (old ++ [s])) t t := by
  have hstuck : stuck ⊆ old ++ [s] := h.stuck_sublist.subset
  have hleft := (dropSinks_sublist stuck.length stuck).subset
  constructor
  · intro ht
    -- a cycle leads to `t`, and from `t` demands lead to a cycle
    obtain ⟨x, hx, hxt⟩ := exists_cycle_before (r := Demands (old ++ [s])) (fun u hu => by
      obtain ⟨v, hv, hvu⟩ := h.blocked u hu
      exact ⟨v, hv, hstuck hv, hstuck hu, hvu⟩) (hleft ht)
    obtain ⟨y, hy, hty⟩ := exists_cycle_after (r := Demands (old ++ [s])) (fun u hu => by
      obtain ⟨v, hv, huv⟩ := exists_mustPrecede_of_mem_dropSinks le_rfl u hu
      exact ⟨v, hv, hstuck (hleft hu), hstuck (hleft hv), huv⟩) ht
    obtain ⟨hxs, hsx⟩ := reaches_newcomer hold hx
    obtain ⟨hys, -⟩ := reaches_newcomer hold hy
    have hnewcomer : TransGen (Demands (old ++ [s])) s s := .trans_right hsx (hx.trans_left hxs)
    exact .trans_right (hty.trans hys) (hnewcomer.trans_left (hsx.trans hxt))
  · intro ht
    refine mem_dropSinks_of_mustPrecede (P := fun t => TransGen (Demands (old ++ [s])) t t) _
      (fun u hu hcycle => ?_) t (h.mem_stuck_of_cycle ht) ht
    obtain ⟨v, huv, hvu⟩ := TransGen.head'_iff.1 hcycle
    have hv : TransGen (Demands (old ++ [s])) v v := .tail' hvu huv
    exact ⟨v, h.mem_stuck_of_cycle hv, hv, huv.2.2⟩

end Newcomer

end Strategy

/-! ## Refusals -/

namespace StrategySet

/-- After any calls a strategy that is refused is refused for the strategies that lie on a cycle of
demands, among those that would then stand in the set, and for no others: they are named once each, in
the order of the set, and the newcomer last. -/
theorem refusal_names_cycles {init : StrategySet} (hinit : init = .empty ∨ init = .standard)
    (calls : List Call) {s : Strategy} {e : Error} (h : (performAll calls init).add s = .error e) :
    let set := performAll calls init
    ∃ others : List Strategy, e = .strategyCycle ((others ++ [s]).map (·.name)) ∧
      ((others ++ [s]).map (·.name)).Nodup ∧
      others.Sublist (set.members.filter fun t => t.name ≠ s.name) ∧
      ∀ t, t ∈ others ++ [s] ↔ TransGen (Strategy.Demands (set.candidates s)) t t := by
  intro set
  have hvalid : set.Valid := valid_performAll hinit calls
  have hold : ¬Strategy.Cyclic (set.members.filter fun t => t.name ≠ s.name) :=
    (hvalid.inOrder.sublist List.filter_sublist).not_cyclic
  rw [add_eq] at h
  cases harrange : arrange (set.candidates s) with
  | ok l =>
    rw [harrange] at h
    cases h
  | error e' =>
    rw [harrange] at h
    obtain rfl : e' = e := Except.error.inj h
    obtain ⟨placed, stuck, hplaced, hne, rfl⟩ := Strategy.stuck_of_arrange harrange
    have hguilty {t : Strategy} : t ∈ dropSinks stuck.length stuck ↔
        TransGen (Strategy.Demands (set.candidates s)) t t := Strategy.mem_dropSinks_iff hold hplaced
    have hsub := (Strategy.dropSinks_sublist stuck.length stuck).trans hplaced.stuck_sublist
    -- every cycle leads through the newcomer, so it is among those named, and then it is the last
    have hnewcomer : s ∈ dropSinks stuck.length stuck := by
      obtain ⟨t, ht⟩ := hplaced.cyclic hne
      obtain ⟨hts, hst⟩ := Strategy.reaches_newcomer hold ht
      exact hguilty.2 (.trans_right hst (ht.trans_left hts))
    obtain ⟨others, last, heq, hothers, hlast⟩ := List.sublist_append_iff.1 hsub
    have hs : s ∉ others := fun hmem => by simpa using hothers.subset hmem
    obtain rfl : last = [s] := by
      rw [heq] at hnewcomer
      have hs' := (List.mem_append.1 hnewcomer).resolve_left hs
      exact hlast.eq_of_length_le (List.length_pos_of_mem hs')
    rw [heq] at hguilty hsub ⊢
    exact ⟨others, rfl, (hvalid.names_candidates s).sublist (hsub.map _), hothers, fun t => hguilty⟩

end StrategySet

/-- `X` and the newcomer wait for each other.  `U`, which comes before them, and the optimization, which
comes after them, are not named. -/
theorem StrategySet.refusal_spares_bystanders :
    let calls : List Call := [.add (.audit "U" .decoration [] ["X"] [] none),
      .add .identityRemoval, .add (.awaiting "X" "S")]
    let set := performAll calls .empty
    let newcomer : Strategy := .awaiting "S" "X"
    set.names = ["U", "X", "IdentityRemovalStrategy"] ∧
      set.add newcomer = .error (.strategyCycle ["X", "S"]) ∧
      ∃ others : List Strategy, others.map (·.name) = ["X"] ∧
        ∀ t, t ∈ others ++ [newcomer] ↔
          TransGen (Strategy.Demands (set.candidates newcomer)) t t := by
  intro calls set newcomer
  have hrefused : set.add newcomer = .error (.strategyCycle ["X", "S"]) := rfl
  obtain ⟨others, hnames, -, -, hothers⟩ := refusal_names_cycles (.inl rfl) calls hrefused
  refine ⟨rfl, hrefused, others, ?_, hothers⟩
  rw [Error.strategyCycle.injEq, List.map_append] at hnames
  exact (List.append_inj_left' hnames rfl).symm

end GraphTraversal
