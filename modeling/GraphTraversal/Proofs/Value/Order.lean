import Mathlib.Data.List.Basic
import Mathlib.Tactic.SplitIfs
import GraphTraversal.Proofs.Numeric.Rounding
import GraphTraversal.Value.Order

/-! # How far the order of values is an order

Comparing values is reflexive, and turning a comparison around turns its answer around.  Transitivity
hangs on the numbers: an integer is compared with a float as the float nearest to it, and two different
integers that share their nearest float are both equal to it.  Values without such a collision among
their numbers are ordered, and no others.
-/

namespace GraphTraversal

/-! ## Comparisons of three elements -/

/-- How three elements of one order can compare: the first with the second, the second with the third,
and the first with the third. -/
structure Coherent (ab bc ac : Ordering) : Prop where
  left : ab = .eq → ac = bc
  right : bc = .eq → ac = ab
  both : ab = bc → ac = ab

namespace Coherent

theorem of_compare {α : Type} [Ord α] [Std.TransOrd α] (a b c : α) :
    Coherent (compare a b) (compare b c) (compare a c) where
  left h := Std.TransCmp.congr_left h
  right h := (Std.TransCmp.congr_right h).symm
  both h := by
    cases hab : compare a b with
    | lt => exact Std.TransCmp.lt_trans hab (h ▸ hab)
    | eq => exact Std.TransCmp.eq_trans hab (h ▸ hab)
    | gt => exact Std.TransCmp.gt_trans hab (h ▸ hab)

/-- Elements that are compared first in one way and then in another. -/
theorem lexicographic {ab bc ac ab' bc' ac' : Ordering} (h : Coherent ab bc ac)
    (h' : ab = .eq → bc = .eq → Coherent ab' bc' ac') :
    Coherent (ab.then ab') (bc.then bc') (ac.then ac') := by
  obtain ⟨hleft, hright, hboth⟩ := h
  cases ab <;> cases bc <;> simp_all
  all_goals constructor <;> simp_all

theorem swap {ab bc ac : Ordering} (h : Coherent ab bc ac) : Coherent ab.swap bc.swap ac.swap := by
  obtain ⟨hleft, hright, hboth⟩ := h
  constructor <;> simpa [Ordering.swap_inj]

theorem ne_gt {ab bc ac : Ordering} (h : Coherent ab bc ac) (hab : ab ≠ .gt) (hbc : bc ≠ .gt) :
    ac ≠ .gt := by
  obtain ⟨hleft, hright, hboth⟩ := h
  cases ab <;> cases bc <;> simp_all

end Coherent

namespace Value

/-! ## Comparing two values -/

mutual

theorem compare_self : (a : Value) → a.compare a = .eq
  | .null => rfl
  | .boolean b => Std.ReflOrd.compare_self
  | .integer n => Std.ReflOrd.compare_self
  | .float x => Std.ReflOrd.compare_self
  | .string s => Std.ReflOrd.compare_self
  | .vertex id => Std.ReflOrd.compare_self
  | .edge id => Std.ReflOrd.compare_self
  | .list l => by rw [compare, compareItems_self l]
  | .map l => by rw [compare, compareEntries_self l]

theorem compareItems_self : (l : List Value) → compareItems l l = .eq
  | [] => rfl
  | a :: l => by rw [compareItems, compare_self a, compareItems_self l]; rfl

theorem compareEntries_self : (l : List (Value × Value)) → compareEntries l l = .eq
  | [] => rfl
  | (k, a) :: l => by
    rw [compareEntries, compare_self k, compare_self a, compareEntries_self l]; rfl

end

/-- Values are compared by kind first. -/
theorem compare_eq_then (a b : Value) :
    a.compare b = (Ord.compare a.rank b.rank).then (a.compare b) := by
  cases a <;> cases b <;> rfl

theorem compare_of_rank_ne {a b : Value} (h : a.rank ≠ b.rank) :
    a.compare b = Ord.compare a.rank b.rank := by
  rw [compare_eq_then]
  cases hrank : Ord.compare a.rank b.rank with
  | eq => exact absurd (Nat.compare_eq_eq.1 hrank) h
  | lt | gt => rfl

mutual

theorem compare_swap (a b : Value) : b.compare a = (a.compare b).swap := by
  by_cases hrank : a.rank = b.rank
  · cases a with
    | null =>
      cases b with
      | null => rfl
      | _ => cases hrank
    | boolean _ =>
      cases b with
      | boolean _ => exact Std.OrientedOrd.eq_swap
      | _ => cases hrank
    | integer _ | float _ =>
      cases b with
      | integer _ | float _ => exact Std.OrientedOrd.eq_swap
      | _ => cases hrank
    | string _ =>
      cases b with
      | string _ => exact Std.OrientedOrd.eq_swap
      | _ => cases hrank
    | vertex _ =>
      cases b with
      | vertex _ => exact Std.OrientedOrd.eq_swap
      | _ => cases hrank
    | edge _ =>
      cases b with
      | edge _ => exact Std.OrientedOrd.eq_swap
      | _ => cases hrank
    | list l =>
      cases b with
      | list m => exact compareItems_swap l m
      | _ => cases hrank
    | map l =>
      cases b with
      | map m => exact compareEntries_swap l m
      | _ => cases hrank
  · rw [compare_of_rank_ne hrank, compare_of_rank_ne (Ne.symm hrank)]
    exact Std.OrientedOrd.eq_swap

theorem compareItems_swap : (l m : List Value) → compareItems m l = (compareItems l m).swap
  | [], [] | [], _ :: _ | _ :: _, [] => rfl
  | a :: l, b :: m => by
    rw [compareItems, compareItems, compare_swap a b, compareItems_swap l m, Ordering.swap_then]

theorem compareEntries_swap :
    (l m : List (Value × Value)) → compareEntries m l = (compareEntries l m).swap
  | [], [] | [], _ :: _ | _ :: _, [] => rfl
  | (j, a) :: l, (k, b) :: m => by
    rw [compareEntries, compareEntries, compare_swap j k, compare_swap a b, compareEntries_swap l m,
      Ordering.swap_then, Ordering.swap_then]

end

/-! ## Collisions -/

mutual

/-- The value and all values that it holds, at whatever depth. -/
def parts : Value → List Value
  | .list items => .list items :: partsOfItems items
  | .map entries => .map entries :: partsOfEntries entries
  | v => [v]

def partsOfItems : List Value → List Value
  | [] => []
  | v :: l => v.parts ++ partsOfItems l

def partsOfEntries : List (Value × Value) → List Value
  | [] => []
  | (k, v) :: l => k.parts ++ v.parts ++ partsOfEntries l

end

theorem mem_partsOfItems {l : List Value} {w : Value} : w ∈ partsOfItems l ↔ ∃ v ∈ l, w ∈ v.parts := by
  induction l with
  | nil => simp [partsOfItems]
  | cons v l ih => simp [partsOfItems, ih]

theorem mem_parts_self (v : Value) : v ∈ v.parts := by
  cases v <;> simp [parts]

mutual

theorem parts_subset_of_mem : (v : Value) → ∀ w ∈ v.parts, w.parts ⊆ v.parts
  | .list l, w, hw => by
    rw [parts, List.mem_cons] at hw
    obtain rfl | hw := hw
    · exact fun _ hx => hx
    · exact List.Subset.trans (parts_subset_of_mem_items l w hw) (List.subset_cons_self _ _)
  | .map l, w, hw => by
    rw [parts, List.mem_cons] at hw
    obtain rfl | hw := hw
    · exact fun _ hx => hx
    · exact List.Subset.trans (parts_subset_of_mem_entries l w hw) (List.subset_cons_self _ _)
  | .null, w, hw | .boolean _, w, hw | .integer _, w, hw | .float _, w, hw | .string _, w, hw
  | .vertex _, w, hw | .edge _, w, hw => by
    obtain rfl : w = _ := by simpa [parts] using hw
    exact fun _ hx => hx

theorem parts_subset_of_mem_items : (l : List Value) → ∀ w ∈ partsOfItems l, w.parts ⊆ partsOfItems l
  | [], _, hw => by cases hw
  | v :: l, w, hw => by
    rw [partsOfItems, List.mem_append] at hw
    obtain hw | hw := hw
    · exact List.subset_append_of_subset_left _ (parts_subset_of_mem v w hw)
    · exact List.subset_append_of_subset_right _ (parts_subset_of_mem_items l w hw)

theorem parts_subset_of_mem_entries :
    (l : List (Value × Value)) → ∀ w ∈ partsOfEntries l, w.parts ⊆ partsOfEntries l
  | [], _, hw => by cases hw
  | (k, v) :: l, w, hw => by
    rw [partsOfEntries, List.mem_append, List.mem_append] at hw
    obtain (hw | hw) | hw := hw
    · exact List.subset_append_of_subset_left _
        (List.subset_append_of_subset_left _ (parts_subset_of_mem k w hw))
    · exact List.subset_append_of_subset_left _
        (List.subset_append_of_subset_right _ (parts_subset_of_mem v w hw))
    · exact List.subset_append_of_subset_right _ (parts_subset_of_mem_entries l w hw)

end

/-- No float among the values is the one nearest to two different integers among them. -/
def Separated (l : List Value) : Prop :=
  ∀ x m n, .float x ∈ l → .integer m ∈ l → .integer n ∈ l → Binary64.ofInt m.toInt = x →
    Binary64.ofInt n.toInt = x → m = n

/-- Integers of at most fifty-three bits share no nearest float. -/
theorem separated_of_small {l : List Value}
    (h : ∀ n : Int64, .integer n ∈ l → n.toInt.natAbs ≤ 2 ^ 53) : Separated l := by
  intro x m n _ hm hn hmx hnx
  exact Int64.toInt_inj.1 (Binary64.ofInt_injOn (h m hm) (h n hn) (hmx.trans hnx.symm))

/-! ## Numbers -/

/-- Two integers with the places to which rounding takes them, and a place where they do not meet. -/
structure Rounded (m n p q x : Int) : Prop where
  le : m ≤ n → p ≤ q
  ge : n ≤ m → q ≤ p
  apart : p = x → q = x → m = n

namespace Rounded

variable {m n p q x : Int} (h : Rounded m n p q x)

include h

theorem coherent_first : Coherent (Ord.compare x p) (Ord.compare m n) (Ord.compare x q) := by
  obtain ⟨hle, hge, hapart⟩ := h
  constructor <;> simp only [Int.compare_eq_ite_lt] <;> split_ifs <;> simp <;> omega

theorem coherent_middle : Coherent (Ord.compare p x) (Ord.compare x q) (Ord.compare m n) := by
  obtain ⟨hle, hge, hapart⟩ := h
  constructor <;> simp only [Int.compare_eq_ite_lt] <;> split_ifs <;> simp <;> omega

theorem coherent_last : Coherent (Ord.compare m n) (Ord.compare q x) (Ord.compare p x) := by
  obtain ⟨hle, hge, hapart⟩ := h
  constructor <;> simp only [Int.compare_eq_ite_lt] <;> split_ifs <;> simp <;> omega

end Rounded

theorem Separated.rounded {l : List Value} (hl : Separated l) {x : Binary64} {m n : Int64}
    (hx : .float x ∈ l) (hm : .integer m ∈ l) (hn : .integer n ∈ l) :
    Rounded m.toInt n.toInt (Binary64.ofInt m.toInt).place (Binary64.ofInt n.toInt).place x.place where
  le := Binary64.place_ofInt_mono
  ge := Binary64.place_ofInt_mono
  apart hmx hnx := congr_arg Int64.toInt
    (hl x m n hx hm hn (Binary64.place_injective hmx) (Binary64.place_injective hnx))

/-! ## Transitivity -/

section Transitivity

variable {l : List Value}

mutual

theorem Separated.coherent (hl : Separated l) (a b c : Value) (ha : a.parts ⊆ l) (hb : b.parts ⊆ l)
    (hc : c.parts ⊆ l) : Coherent (a.compare b) (b.compare c) (a.compare c) := by
  have hmem {v : Value} (hv : v.parts ⊆ l) : v ∈ l := hv v.mem_parts_self
  rw [compare_eq_then a b, compare_eq_then b c, compare_eq_then a c]
  refine (Coherent.of_compare a.rank b.rank c.rank).lexicographic fun hab hbc => ?_
  replace hab := Nat.compare_eq_eq.1 hab
  replace hbc := Nat.compare_eq_eq.1 hbc
  cases a with
  | null =>
    cases b with
    | null =>
      cases c with
      | null => exact ⟨fun _ => rfl, fun _ => rfl, fun _ => rfl⟩
      | _ => cases hbc
    | _ => cases hab
  | boolean a =>
    cases b with
    | boolean b =>
      cases c with
      | boolean c => exact .of_compare a b c
      | _ => cases hbc
    | _ => cases hab
  | integer m =>
    cases b with
    | integer n =>
      cases c with
      | integer k => exact .of_compare m.toInt n.toInt k.toInt
      | float z => exact (hl.rounded (hmem hc) (hmem ha) (hmem hb)).coherent_last
      | _ => cases hbc
    | float y =>
      cases c with
      | integer k => exact (hl.rounded (hmem hb) (hmem ha) (hmem hc)).coherent_middle
      | float z => exact .of_compare (Binary64.ofInt m.toInt).place y.place z.place
      | _ => cases hbc
    | _ => cases hab
  | float x =>
    cases b with
    | integer n =>
      cases c with
      | integer k => exact (hl.rounded (hmem ha) (hmem hb) (hmem hc)).coherent_first
      | float z => exact .of_compare x.place (Binary64.ofInt n.toInt).place z.place
      | _ => cases hbc
    | float y =>
      cases c with
      | integer k => exact .of_compare x.place y.place (Binary64.ofInt k.toInt).place
      | float z => exact .of_compare x.place y.place z.place
      | _ => cases hbc
    | _ => cases hab
  | string a =>
    cases b with
    | string b =>
      cases c with
      | string c => exact .of_compare a b c
      | _ => cases hbc
    | _ => cases hab
  | vertex a =>
    cases b with
    | vertex b =>
      cases c with
      | vertex c => exact .of_compare a.val b.val c.val
      | _ => cases hbc
    | _ => cases hab
  | edge a =>
    cases b with
    | edge b =>
      cases c with
      | edge c => exact .of_compare a.val b.val c.val
      | _ => cases hbc
    | _ => cases hab
  | list as =>
    cases b with
    | list bs =>
      cases c with
      | list cs =>
        exact Separated.coherentItems hl as bs cs (List.subset_of_cons_subset ha)
          (List.subset_of_cons_subset hb) (List.subset_of_cons_subset hc)
      | _ => cases hbc
    | _ => cases hab
  | map as =>
    cases b with
    | map bs =>
      cases c with
      | map cs =>
        exact Separated.coherentEntries hl as bs cs (List.subset_of_cons_subset ha)
          (List.subset_of_cons_subset hb) (List.subset_of_cons_subset hc)
      | _ => cases hbc
    | _ => cases hab

theorem Separated.coherentItems (hl : Separated l) : (as bs cs : List Value) → partsOfItems as ⊆ l →
    partsOfItems bs ⊆ l → partsOfItems cs ⊆ l →
      Coherent (compareItems as bs) (compareItems bs cs) (compareItems as cs)
  | [], [], [], _, _, _ => ⟨fun _ => rfl, fun _ => rfl, fun _ => rfl⟩
  | [], [], _ :: _, _, _, _ => ⟨fun _ => rfl, nofun, nofun⟩
  | [], _ :: _, [], _, _, _ => ⟨nofun, nofun, nofun⟩
  | [], _ :: _, _ :: _, _, _, _ => ⟨nofun, fun _ => rfl, fun _ => rfl⟩
  | _ :: _, [], [], _, _, _ => ⟨nofun, fun _ => rfl, nofun⟩
  | _ :: _, [], _ :: _, _, _, _ => ⟨nofun, nofun, nofun⟩
  | _ :: _, _ :: _, [], _, _, _ => ⟨fun _ => rfl, nofun, fun h => h.symm⟩
  | a :: as, b :: bs, c :: cs, ha, hb, hc => by
    obtain ⟨ha, has⟩ := List.append_subset.1 ha
    obtain ⟨hb, hbs⟩ := List.append_subset.1 hb
    obtain ⟨hc, hcs⟩ := List.append_subset.1 hc
    exact (Separated.coherent hl a b c ha hb hc).lexicographic fun _ _ =>
      Separated.coherentItems hl as bs cs has hbs hcs

theorem Separated.coherentEntries (hl : Separated l) : (as bs cs : List (Value × Value)) →
    partsOfEntries as ⊆ l → partsOfEntries bs ⊆ l → partsOfEntries cs ⊆ l →
      Coherent (compareEntries as bs) (compareEntries bs cs) (compareEntries as cs)
  | [], [], [], _, _, _ => ⟨fun _ => rfl, fun _ => rfl, fun _ => rfl⟩
  | [], [], _ :: _, _, _, _ => ⟨fun _ => rfl, nofun, nofun⟩
  | [], _ :: _, [], _, _, _ => ⟨nofun, nofun, nofun⟩
  | [], _ :: _, _ :: _, _, _, _ => ⟨nofun, fun _ => rfl, fun _ => rfl⟩
  | _ :: _, [], [], _, _, _ => ⟨nofun, fun _ => rfl, nofun⟩
  | _ :: _, [], _ :: _, _, _, _ => ⟨nofun, nofun, nofun⟩
  | _ :: _, _ :: _, [], _, _, _ => ⟨fun _ => rfl, nofun, fun h => h.symm⟩
  | (j, a) :: as, (k, b) :: bs, (i, c) :: cs, ha, hb, hc => by
    obtain ⟨hja, has⟩ := List.append_subset.1 ha
    obtain ⟨hkb, hbs⟩ := List.append_subset.1 hb
    obtain ⟨hic, hcs⟩ := List.append_subset.1 hc
    obtain ⟨hj, ha⟩ := List.append_subset.1 hja
    obtain ⟨hk, hb⟩ := List.append_subset.1 hkb
    obtain ⟨hi, hc⟩ := List.append_subset.1 hic
    have hentry := (Separated.coherent hl j k i hj hk hi).lexicographic fun _ _ =>
      Separated.coherent hl a b c ha hb hc
    exact hentry.lexicographic fun _ _ => Separated.coherentEntries hl as bs cs has hbs hcs

end

end Transitivity

/-- The order of values as a preorder: on any values with all their parts it is one exactly if no float
among the parts is the nearest one to two different integers among them. -/
theorem compare_preorder_iff (l : List Value) :
    (∀ a b : Value, a.compare a = .eq ∧ b.compare a = (a.compare b).swap) ∧
      ((∀ a ∈ partsOfItems l, ∀ b ∈ partsOfItems l, ∀ c ∈ partsOfItems l,
          a.compare b ≠ .gt → b.compare c ≠ .gt → a.compare c ≠ .gt) ↔
        Separated (partsOfItems l)) := by
  refine ⟨fun a b => ⟨compare_self a, compare_swap a b⟩, fun htrans => ?_, fun hl => ?_⟩
  · have hle {x : Binary64} {m n : Int64} (hx : .float x ∈ partsOfItems l)
        (hm : .integer m ∈ partsOfItems l) (hn : .integer n ∈ partsOfItems l)
        (hmx : Binary64.ofInt m.toInt = x) (hnx : Binary64.ofInt n.toInt = x) :
        m.toInt ≤ n.toInt := by
      have heq : (Value.integer m).compare (.float x) = .eq := by
        rw [compare, hmx]
        exact Std.ReflOrd.compare_self
      have heq' : (Value.float x).compare (.integer n) = .eq := by
        rw [compare, hnx]
        exact Std.ReflOrd.compare_self
      have hmn := htrans _ hm _ hx _ hn (by simp [heq]) (by simp [heq'])
      exact Int.compare_ne_gt.1 hmn
    intro x m n hx hm hn hmx hnx
    exact Int64.toInt_inj.1 (le_antisymm (hle hx hm hn hmx hnx) (hle hx hn hm hnx hmx))
  · intro a ha b hb c hc
    have hparts := parts_subset_of_mem_items l
    exact (hl.coherent a b c (hparts a ha) (hparts b hb) (hparts c hc)).ne_gt

/-- An integer of fifty-four bits, the float that it shares with the integer before, and that one. -/
theorem compare_rounding_collision :
    let a : Value := .integer 9007199254740993
    let b : Value := .float ⟨0x4340000000000000⟩
    let c : Value := .integer 9007199254740992
    a.compare b = .eq ∧ b.compare c = .eq ∧ a.compare c = .gt := by
  decide +kernel

end Value

end GraphTraversal
