import Mathlib.Data.List.Forall2

/-! # Lists related element by element -/

namespace GraphTraversal

variable {α β : Type} {R S : α → β → Prop}

theorem rel_getElem? {l : List α} {l' : List β} (h : List.Forall₂ R l l') (i : Nat) :
    Option.Rel R l[i]? l'[i]? := by
  induction h generalizing i with
  | nil => exact .none
  | cons hx _ ih =>
    cases i with
    | zero => exact .some hx
    | succ i => exact ih i

theorem rel_set {l : List α} {l' : List β} (h : List.Forall₂ R l l') (i : Nat) {x : α} {x' : β}
    (hx : R x x') : List.Forall₂ R (l.set i x) (l'.set i x') := by
  induction h generalizing i with
  | nil => exact .nil
  | cons hy hl ih =>
    cases i with
    | zero => exact .cons hx hl
    | succ i => exact .cons hy (ih i)

theorem forall₂_imp_of_mem {l : List α} {l' : List β} (h : List.Forall₂ R l l')
    (hS : ∀ x ∈ l, ∀ y ∈ l', R x y → S x y) : List.Forall₂ S l l' := by
  induction h with
  | nil => exact .nil
  | cons hx _ ih =>
    refine .cons (hS _ (by simp) _ (by simp) hx) (ih fun x hx y hy => ?_)
    exact hS x (by simp [hx]) y (by simp [hy])

theorem forall_mem_left {l : List α} {l' : List β} (h : List.Forall₂ R l l') {P : α → Prop}
    (hP : ∀ x y, R x y → P x) : ∀ x ∈ l, P x :=
  ((List.forall₂_and_left l l').1 (h.imp fun x y hxy => ⟨hP x y hxy, hxy⟩)).1

theorem forall₂_of_map_eq {f : α → β} {l l' : List α} (h : l.map f = l'.map f) :
    List.Forall₂ (fun x y => f x = f y) l l' := by
  rw [← List.forall₂_eq_eq_eq, List.forall₂_map_left_iff, List.forall₂_map_right_iff] at h
  exact h

end GraphTraversal
