import Mathlib.Algebra.Order.BigOperators.Group.List
import GraphTraversal.Proofs.Data.DriftSort
import GraphTraversal.Proofs.Data.Except
import GraphTraversal.Proofs.Value.Order
import GraphTraversal.Step.Evaluation

/-! # What breaks off a program

Keys are compared as a preorder if no float among them is the nearest one to two different integers.  A
sort that breaks off the program has met such numbers.
-/

namespace GraphTraversal

/-- What has to be so for the program to break off. -/
def Panic.Justified : Panic → Prop
  | .disorder values => 20 < values.length ∧ ¬Value.Separated (Value.partsOfItems values)
  | .overflow counter => 2 ^ 64 ≤ counter + 1

def Error.Justified : Error → Prop
  | .execution (.panic cause) => cause.Justified
  | _ => True

namespace Value

theorem preorderOn_compare {l : List Value} (h : Separated (partsOfItems l)) : PreorderOn compare l where
  swap a _ b _ := compare_swap a b
  trans a ha b hb c hc := by
    have hparts {v : Value} (hv : v ∈ l) : v.parts ⊆ partsOfItems l := fun w hw =>
      mem_partsOfItems.2 ⟨v, hv, hw⟩
    exact (h.coherent a b c (hparts ha) (hparts hb) (hparts hc)).ne_gt

end Value

namespace Comparator

/-! ## Comparing keys -/

theorem compareKeys_swap (orders : List SortOrder) (a b : List Value) :
    compareKeys orders b a = (compareKeys orders a b).swap := by
  induction orders generalizing a b with
  | nil => rfl
  | cons o orders ih =>
    cases a with
    | nil => cases b <;> rfl
    | cons v a =>
      cases b with
      | nil => rfl
      | cons w b =>
        simp only [compareKeys, Ordering.swap_then, ← ih a b]
        cases o with
        | ascending => simp only [Value.compare_swap v w]
        | descending => simp only [Value.compare_swap w v]

/-- Keys in equal number are compared coherently if their numbers do not collide. -/
theorem compareKeys_coherent {parts : List Value} (hparts : Value.Separated parts)
    (orders : List SortOrder) {a b c : List Value}
    (ha : a.length = orders.length ∧ Value.partsOfItems a ⊆ parts)
    (hb : b.length = orders.length ∧ Value.partsOfItems b ⊆ parts)
    (hc : c.length = orders.length ∧ Value.partsOfItems c ⊆ parts) :
    Coherent (compareKeys orders a b) (compareKeys orders b c) (compareKeys orders a c) := by
  induction orders generalizing a b c with
  | nil => exact ⟨fun _ => rfl, fun _ => rfl, fun _ => rfl⟩
  | cons o orders ih =>
    match a, b, c with
    | [], _, _ => cases ha.1
    | _ :: _, [], _ => cases hb.1
    | _ :: _, _ :: _, [] => cases hc.1
    | u :: a, v :: b, w :: c =>
      simp only [List.length_cons, Nat.add_right_cancel_iff, Value.partsOfItems,
        List.append_subset] at ha hb hc
      have hfirst := hparts.coherent u v w ha.2.1 hb.2.1 hc.2.1
      have hrest := ih ⟨ha.1, ha.2.2⟩ ⟨hb.1, hb.2.2⟩ ⟨hc.1, hc.2.2⟩
      cases o with
      | ascending => exact hfirst.lexicographic fun _ _ => hrest
      | descending =>
        simp only [compareKeys, Value.compare_swap u v, Value.compare_swap v w, Value.compare_swap u w]
        exact hfirst.swap.lexicographic fun _ _ => hrest

/-- Lists of keys in equal number, without a collision among the keys of all of them. -/
theorem preorderOn_compareKeys {α : Type} {orders : List SortOrder} {keys : α → List Value} {l : List α}
    (hlength : ∀ x ∈ l, (keys x).length = orders.length)
    (hseparated : Value.Separated (Value.partsOfItems (l.flatMap keys))) :
    PreorderOn (fun x y => compareKeys orders (keys x) (keys y)) l where
  swap x _ y _ := compareKeys_swap orders (keys x) (keys y)
  trans x hx y hy z hz := by
    have hkeys {x : α} (hx : x ∈ l) : (keys x).length = orders.length ∧
        Value.partsOfItems (keys x) ⊆ Value.partsOfItems (l.flatMap keys) :=
      ⟨hlength x hx, fun w hw => by
        obtain ⟨v, hv, hw⟩ := Value.mem_partsOfItems.1 hw
        exact Value.mem_partsOfItems.2 ⟨v, List.mem_flatMap.2 ⟨x, hx, hv⟩, hw⟩⟩
    exact (compareKeys_coherent hseparated orders (hkeys hx) (hkeys hy) (hkeys hz)).ne_gt

/-! ## Sorting -/

section Arranging

variable {α : Type} {cmp : α → α → Ordering} {size : Nat} {values : α → List Value} {l : List α}

theorem arrange_eq (h : PreorderOn cmp l) :
    arrange (fun a b => cmp a b == .lt) size values l =
      .ok (stableSort (fun a b => cmp a b == .lt) l) := by
  rw [arrange, DriftSort.sort_eq h]

theorem arrange_short (before : α → α → Bool) (hl : l.length ≤ 20) :
    arrange before size values l = .ok (stableSort before l) := by
  rw [arrange, DriftSort.sort, if_pos hl]

theorem arrangeKeyed_eq {orders : List SortOrder} {keyed : List (List Value × Value)}
    (h : PreorderOn (fun a b => compareKeys orders a.1 b.1) keyed) :
    arrangeKeyed orders keyed =
      .ok ((stableSort (fun a b => compareKeys orders a.1 b.1 == .lt) keyed).map (·.2)) := by
  rw [arrangeKeyed, arrange_eq h]
  rfl

theorem arrangeKeyed_short {orders : List SortOrder} {keyed : List (List Value × Value)}
    (hl : keyed.length ≤ 20) : arrangeKeyed orders keyed =
      .ok ((stableSort (fun a b => compareKeys orders a.1 b.1 == .lt) keyed).map (·.2)) := by
  rw [arrangeKeyed, arrange_short _ hl]
  rfl

theorem arrange_error (cmp : α → α → Ordering) {e : Error}
    (h : arrange (fun a b => cmp a b == .lt) size values l = .error e) :
    e = .panic (.disorder (l.flatMap values)) ∧ 20 < l.length ∧ ¬PreorderOn cmp l := by
  rw [arrange] at h
  split at h
  · cases h
  · cases h
    exact ⟨rfl, DriftSort.not_preorderOn_of_sort ‹_›⟩

end Arranging

theorem arrange_justified {inputs : List Value} {size : Nat} {e : Error}
    (h : arrange Value.before size ([·]) inputs = .error e) : e.Justified := by
  obtain ⟨rfl, hlong, hdisorder⟩ := arrange_error Value.compare h
  have hvalues : inputs.flatMap ([·]) = inputs := List.flatMap_singleton' inputs
  rw [hvalues]
  exact ⟨hlong, fun hseparated => hdisorder (Value.preorderOn_compare hseparated)⟩

theorem arrangeKeyed_justified {orders : List SortOrder} (horders : orders ≠ [])
    {keyed : List (List Value × Value)} (hlength : ∀ x ∈ keyed, x.1.length = orders.length) {e : Error}
    (h : arrangeKeyed orders keyed = .error e) : e.Justified := by
  rw [arrangeKeyed] at h
  cases harranged : arrange (fun a b => compareKeys orders a.1 b.1 == .lt) 56 (·.1) keyed with
  | ok l => rw [harranged] at h; cases h
  | error e' =>
    rw [harranged] at h
    cases h
    obtain ⟨rfl, hlong, hdisorder⟩ := arrange_error _ harranged
    refine ⟨?_, fun hseparated => hdisorder (preorderOn_compareKeys hlength hseparated)⟩
    calc
      20 < keyed.length := hlong
      _ = (keyed.map fun _ => 1).sum := by simp
      _ ≤ (keyed.map (·.1.length)).sum := List.sum_le_sum fun x hx => by
        rw [hlength x hx]
        exact List.length_pos_iff.2 horders
      _ = (keyed.flatMap (·.1)).length := List.length_flatMap.symm

/-! ## The number of keys -/

section Keys

variable {m : Machine Step} {v : Value} {g : Graph}

theorem length_of_map_cons {r : Except Error (List Value)} {n : Nat}
    (h : ∀ keys, r = .ok keys → keys.length = n) (key : Value) {keys : List Value}
    (hkeys : r.map (key :: ·) = .ok keys) : keys.length = n + 1 := by
  obtain ⟨rest, hrest, rfl⟩ := Except.exists_of_map hkeys
  rw [List.length_cons, h rest hrest]

theorem length_keysOf (l : List Comparator) :
    (keysOf m v l g).state.length = l.length ∧
      ∀ keys, (keysOf m v l g).result = .ok keys → keys.length = l.length := by
  induction l generalizing g with
  | nil =>
    refine ⟨rfl, fun keys h => ?_⟩
    cases h
    rfl
  | cons c l ih =>
    cases c with
    | self order =>
      obtain ⟨hstate, hkeys⟩ := ih (g := g)
      exact ⟨congr_arg Nat.succ hstate, fun _ => length_of_map_cons hkeys v⟩
    | «by» child =>
      rw [keysOf]
      dsimp only
      split
      · exact ⟨rfl, nofun⟩
      · obtain ⟨hstate, hkeys⟩ := ih (g := (child.first m v g).graph)
        exact ⟨congr_arg Nat.succ hstate, fun _ => length_of_map_cons hkeys _⟩

/-- There is a key for each comparator. -/
theorem length_of_keyed {l : List Comparator} {inputs : List Value} {keyed : List (List Value × Value)}
    (h : (Comparator.keyed m l inputs g).result = .ok keyed) : ∀ x ∈ keyed, x.1.length = l.length := by
  induction inputs generalizing l keyed g with
  | nil =>
    cases h
    nofun
  | cons v inputs ih =>
    obtain ⟨hstate, hkeys⟩ := length_keysOf (m := m) (v := v) (g := g) l
    rw [Comparator.keyed] at h
    dsimp only at h
    split at h
    · cases h
    · obtain ⟨rest, hrest, rfl⟩ := Except.exists_of_map h
      refine List.forall_mem_cons.2 ⟨hkeys _ ‹_›, fun x hx => ?_⟩
      rw [ih hrest x hx, hstate]

end Keys

end Comparator

end GraphTraversal
