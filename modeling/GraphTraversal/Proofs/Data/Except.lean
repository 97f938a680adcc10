import Mathlib.Data.List.Forall2
import GraphTraversal.Error

/-! # Computations that succeed

What stands behind the success of a computation that was put together from others.
-/

namespace GraphTraversal

theorem Except.exists_of_map {α β : Type} {f : α → β} {r : Except Error α} {b : β}
    (h : r.map f = .ok b) : ∃ a, r = .ok a ∧ f a = b := by
  cases r with
  | error e => cases h
  | ok a => exact ⟨a, rfl, Except.ok.inj h⟩

theorem Except.exists_of_bind {α β : Type} {f : α → Except Error β} {r : Except Error α} {b : β}
    (h : r >>= f = .ok b) : ∃ a, r = .ok a ∧ f a = .ok b := by
  cases r with
  | error e => cases h
  | ok a => exact ⟨a, rfl, h⟩

theorem Except.bind_eq_ok_iff {α β : Type} {f : α → Except Error β} {r : Except Error α} {b : β} :
    r >>= f = .ok b ↔ ∃ a, r = .ok a ∧ f a = .ok b := by
  refine ⟨Except.exists_of_bind, ?_⟩
  rintro ⟨a, rfl, ha⟩
  exact ha

theorem Except.foldlM_keeps {α σ : Type} {f : σ → α → Except Error σ} {P : σ → Prop}
    (hstep : ∀ {s a s'}, P s → f s a = .ok s' → P s') {l : List α} {s s' : σ}
    (h : l.foldlM f s = .ok s') (hs : P s) : P s' := by
  induction l generalizing s with
  | nil =>
    cases h
    exact hs
  | cons a l ih =>
    rw [List.foldlM_cons] at h
    obtain ⟨t, ht, h⟩ := Except.exists_of_bind h
    exact ih h (hstep hs ht)

theorem Except.mapM_eq {α β : Type} {f : α → Except Error β} {l : List α} {l' : List β}
    (h : List.Forall₂ (fun a b => f a = .ok b) l l') : l.mapM f = .ok l' := by
  induction h with
  | nil => rfl
  | cons ha _ ih =>
    rw [List.mapM_cons, ha, ih]
    rfl

theorem Except.forall₂_of_mapM {α β : Type} {f : α → Except Error β} {l : List α} {l' : List β}
    (h : l.mapM f = .ok l') : List.Forall₂ (fun a b => f a = .ok b) l l' := by
  induction l generalizing l' with
  | nil =>
    cases h
    exact .nil
  | cons a l ih =>
    rw [List.mapM_cons] at h
    obtain ⟨b, hb, h⟩ := Except.exists_of_bind h
    obtain ⟨m, hm, h⟩ := Except.exists_of_bind h
    cases h
    exact .cons hb (ih hm)

/-- The first of the elements that fail decides. -/
theorem Except.mapM_eq_error {α β : Type} {f : α → Except Error β} {u w : List α} {y : α} {e : Error}
    (hu : ∀ v ∈ u, ∃ b, f v = .ok b) (hy : f y = .error e) : (u ++ y :: w).mapM f = .error e := by
  induction u with
  | nil =>
    rw [List.nil_append, List.mapM_cons, hy]
    rfl
  | cons v u ih =>
    obtain ⟨⟨b, hb⟩, hu⟩ := List.forall_mem_cons.1 hu
    rw [List.cons_append, List.mapM_cons, hb, ih hu]
    rfl

theorem Except.exists_first_error {α β : Type} {f : α → Except Error β} {l : List α} {x : α}
    (hx : x ∈ l) {e : Error} (h : f x = .error e) :
    ∃ u y w e', l = u ++ y :: w ∧ (∀ v ∈ u, ∃ b, f v = .ok b) ∧ f y = .error e' := by
  induction l with
  | nil => cases hx
  | cons v l ih =>
    cases hv : f v with
    | error e' => exact ⟨[], v, l, e', rfl, List.forall_mem_nil _, hv⟩
    | ok b =>
      have hl : x ∈ l := by
        obtain rfl | hl := List.mem_cons.1 hx
        · cases h.symm.trans hv
        · exact hl
      obtain ⟨u, y, w, e', rfl, hu, hy⟩ := ih hl
      exact ⟨v :: u, y, w, e', rfl, List.forall_mem_cons.2 ⟨⟨b, hv⟩, hu⟩, hy⟩

theorem Except.mapM_eq_error_iff {α β : Type} {f : α → Except Error β} {l : List α} {e : Error} :
    l.mapM f = .error e ↔
      ∃ i : Nat, l[i]?.map f = some (.error e) ∧ ∀ j < i, ∃ b, l[j]?.map f = some (.ok b) := by
  induction l with
  | nil => simp [List.mapM_nil, pure, Except.pure]
  | cons a l ih =>
    rw [List.mapM_cons]
    cases ha : f a with
    | error e' =>
      constructor
      · intro h
        cases h
        exact ⟨0, congrArg some ha, nofun⟩
      · rintro ⟨i, hi, hbefore⟩
        cases i with
        | zero =>
          cases ha.symm.trans (Option.some.inj hi)
          rfl
        | succ i =>
          obtain ⟨b, hb⟩ := hbefore 0 i.succ_pos
          cases ha.symm.trans (Option.some.inj hb)
    | ok b =>
      have hrest : ((Except.ok b : Except Error β) >>= fun b => l.mapM f >>= fun bs => pure (b :: bs)) =
          .error e ↔ l.mapM f = .error e := by
        cases l.mapM f with
        | error e' => exact Iff.rfl
        | ok bs => exact ⟨nofun, nofun⟩
      rw [hrest, ih]
      constructor
      · rintro ⟨i, hi, hbefore⟩
        refine ⟨i + 1, hi, fun j hj => ?_⟩
        cases j with
        | zero => exact ⟨b, congrArg some ha⟩
        | succ j => exact hbefore j (Nat.lt_of_succ_lt_succ hj)
      · rintro ⟨i, hi, hbefore⟩
        cases i with
        | zero => cases ha.symm.trans (Option.some.inj hi)
        | succ i => exact ⟨i, hi, fun j hj => hbefore (j + 1) (Nat.succ_lt_succ hj)⟩

end GraphTraversal
