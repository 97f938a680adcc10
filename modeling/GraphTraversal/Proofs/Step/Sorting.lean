import GraphTraversal.Proofs.Data.StableSort
import GraphTraversal.Proofs.Step.Keys
import GraphTraversal.Proofs.Value.Order

/-! # Sorting by keys

A barrier that sorts compares its inputs key by key, the first difference deciding, and turns the
comparison around under a descending comparator.  If the keys compare as a preorder then so do the
inputs, and the inputs come out in order, those that compare equal as they came in.
-/

namespace GraphTraversal

def SortOrder.direct : SortOrder → Ordering → Ordering
  | .ascending, o => o
  | .descending, o => o.swap

namespace Comparator

/-- The key of an input, worked out for it alone: what the child yields first, null if it yields
nothing, or the input itself. -/
def evaluate (g : Graph) (v : Value) : Comparator → Except Error Value
  | .self _ => .ok v
  | .by child => (child.first (Step.machine child.height) v g).result.map (·.getD .null)

/-- The comparators that decide; if there are none, the inputs are their own keys. -/
def deciding (l : List Comparator) : List Comparator := if l.isEmpty then [.self .ascending] else l

/-- The lexicographic combination of comparators on inputs with the given keys. -/
def combined (key : Comparator → Value → Value) (l : List Comparator) (v w : Value) : Ordering :=
  l.foldr (fun c rest => (c.sortOrder.direct ((key c v).compare (key c w))).then rest) .eq

/-! ## The combination as a preorder -/

section Preorder

variable {key : Comparator → Value → Value}

theorem compareKeys_eq (l : List Comparator) (v w : Value) :
    compareKeys (l.map (·.sortOrder)) (l.map (key · v)) (l.map (key · w)) = combined key l v w := by
  induction l with
  | nil => rfl
  | cons c l ih =>
    simp only [List.map_cons, compareKeys, ih, combined, List.foldr_cons]
    cases c.sortOrder with
    | ascending => rfl
    | descending =>
      rw [Value.compare_swap (key c v) (key c w)]
      rfl

/-- Keys without an integer beyond `2 ^ 53` make the combination a preorder on the inputs. -/
theorem preorderOn_combined {l : List Comparator} {inputs : List Value}
    (h : ∀ c ∈ l, ∀ v ∈ inputs, ∀ n : Int64, .integer n ∈ (key c v).parts →
      n.toInt.natAbs ≤ 2 ^ 53) : PreorderOn (combined key l) inputs := by
  let keys (v : Value) : List Value := l.map (key · v)
  have hseparated : Value.Separated (Value.partsOfItems (inputs.flatMap keys)) :=
    Value.separated_of_small fun n hn => by
      obtain ⟨w, hw, hn⟩ := Value.mem_partsOfItems.1 hn
      obtain ⟨v, hv, hw⟩ := List.mem_flatMap.1 hw
      obtain ⟨c, hc, rfl⟩ := List.mem_map.1 hw
      exact h c hc v hv n hn
  have hkeys : combined key l = fun v w => compareKeys (l.map (·.sortOrder)) (keys v) (keys w) := by
    funext v w
    exact (compareKeys_eq l v w).symm
  rw [hkeys]
  refine preorderOn_compareKeys (fun v _ => ?_) hseparated
  rw [List.length_map, List.length_map]

end Preorder

/-! ## Sorting by the combination -/

section Keys

variable {g : Graph} {key : Comparator → Value → Value}

theorem key_eq_evaluate {c : Comparator} (hc : ∀ p ∈ c.child?, p.ReadOnly) (v : Value) :
    Comparator.key g v c = c.evaluate g v := by
  cases c with
  | self order => rfl
  | «by» child =>
    have hfirst := (child.first_eq Step.machine_layered (hc child rfl) le_rfl (g := g) v).1
    rw [Comparator.key, evaluate, hfirst]

theorem withKeys_eq {l : List Comparator} (hl : ∀ p ∈ l.filterMap (·.child?), p.ReadOnly) {v : Value}
    (hkey : ∀ c ∈ l, c.evaluate g v = .ok (key c v)) :
    withKeys g l v = .ok (l.map (key · v), v) := by
  have hkeys : l.mapM (Comparator.key g v) = .ok (l.map (key · v)) := by
    refine Except.mapM_eq (List.forall₂_map_right_iff.2 (List.forall₂_same.2 fun c hc => ?_))
    rw [key_eq_evaluate (fun p hp => hl p (List.mem_filterMap.2 ⟨c, hc, hp⟩)), hkey c hc]
  rw [withKeys, hkeys]
  rfl

end Keys

end Comparator

/-- A barrier that sorts by a preorder releases its inputs as a stable sort leaves them. -/
theorem Step.release_order {comparators : List Comparator} (hread : (Step.order comparators).ReadOnly)
    {g : Graph} {inputs : List Value} {key : Comparator → Value → Value}
    (hkey : ∀ c ∈ Comparator.deciding comparators, ∀ v ∈ inputs, c.evaluate g v = .ok (key c v))
    (hcombined : PreorderOn (Comparator.combined key (Comparator.deciding comparators)) inputs) :
    ((Step.order comparators).release inputs g).result = .ok (stableSort
      (fun v w => Comparator.combined key (Comparator.deciding comparators) v w == .lt) inputs) := by
  obtain ⟨n, hn⟩ := (Step.order comparators).exists_height_eq_succ
  cases hempty : comparators.isEmpty with
  | true =>
    have hdeciding : Comparator.deciding comparators = [.self .ascending] := if_pos hempty
    rw [hdeciding] at hkey hcombined ⊢
    have hself {v : Value} (hv : v ∈ inputs) : key (.self .ascending) v = v :=
      (Except.ok.inj (hkey _ List.mem_cons_self v hv)).symm
    simp only [release, hn, machine, releaseWith, Comparator.sort, hempty, if_true]
    have hcompare {v w : Value} (hv : v ∈ inputs) (hw : w ∈ inputs) :
        v.compare w = Comparator.combined key [.self .ascending] v w := by
      simp [Comparator.combined, hself hv, hself hw, Comparator.sortOrder, SortOrder.direct]
    refine (Comparator.arrange_eq (hcombined.congr fun v hv w hw => (hcompare hv hw).symm)).trans ?_
    exact congr_arg Except.ok (stableSort_congr fun v hv w hw => by rw [hcompare hv hw])
  | false =>
    have hdeciding : Comparator.deciding comparators = comparators := by
      simp [Comparator.deciding, hempty]
    rw [hdeciding] at hkey hcombined ⊢
    let withKeys (v : Value) : List Value × Value := (comparators.map (key · v), v)
    have hchildren : Comparator.Harmless n comparators := fun p hp =>
      ⟨hread.2 p hp, height_le_succ_iff.1 hn.le p hp⟩
    have hkeyed : inputs.mapM (Comparator.withKeys g comparators) = .ok (inputs.map withKeys) := by
      refine Except.mapM_eq (List.forall₂_map_right_iff.2 (List.forall₂_same.2 fun v hv => ?_))
      exact Comparator.withKeys_eq hread.2 fun c hc => hkey c hc v hv
    simp only [release, hn, machine, releaseWith, Comparator.sort_eq hchildren hempty, hkeyed]
    have hpreorder : PreorderOn
        (fun a b => Comparator.compareKeys (comparators.map (·.sortOrder)) a.1 b.1)
        (inputs.map withKeys) := by
      refine PreorderOn.map ?_
      simpa only [withKeys, Comparator.compareKeys_eq] using hcombined
    refine (Comparator.arrangeKeyed_eq hpreorder).trans ?_
    simp only [stableSort_map, List.map_map, withKeys, Comparator.compareKeys_eq]
    exact congr_arg Except.ok (List.map_id _)

/-- A barrier that sorts is a stable lexicographic sort.  If the children change nothing, every input has
its keys, and no key holds an integer beyond `2 ^ 53`, then the inputs come out rearranged, each before
those that the combination of the comparators puts behind it, and those that compare equal as they came
in, also under a descending comparator. -/
theorem Step.order_stable {comparators : List Comparator} (hread : (Step.order comparators).ReadOnly)
    {g : Graph} {inputs : List Value} {key : Comparator → Value → Value}
    (hkey : ∀ c ∈ Comparator.deciding comparators, ∀ v ∈ inputs, c.evaluate g v = .ok (key c v))
    (hsmall : ∀ c ∈ Comparator.deciding comparators, ∀ v ∈ inputs, ∀ n : Int64,
      .integer n ∈ (key c v).parts → n.toInt.natAbs ≤ 2 ^ 53) :
    ∃ order : List (Value × Nat), order.Perm inputs.zipIdx ∧
      ((Step.order comparators).release inputs g).result = .ok (order.map (·.1)) ∧
      order.Pairwise fun a b =>
        let ordering := Comparator.combined key (Comparator.deciding comparators) a.1 b.1
        ordering = .lt ∨ ordering = .eq ∧ a.2 < b.2 := by
  have hcombined := Comparator.preorderOn_combined hsmall
  obtain ⟨order, hperm, hvalues, hsorted⟩ := exists_stable_order hcombined
  exact ⟨order, hperm, by rw [release_order hread hkey hcombined, hvalues], hsorted⟩

/-- The child yields only the one, so the other numbers have null for their first key and come before it.
The second comparator turns their order around, but not that of the float and the integer that compare
equal. -/
theorem Step.order_descending_ties :
    let comparators : List Comparator := [.by { steps := [.is (.integer 1)] }, .self .descending]
    let inputs : List Value := [.integer 1, .float ⟨0x4000000000000000⟩, .integer 3, .integer 2]
    let outputs : List Value := [.integer 3, .float ⟨0x4000000000000000⟩, .integer 2, .integer 1]
    let key : Comparator → Value → Value
      | .by _, v => if v = .integer 1 then v else .null
      | .self _, v => v
    ((Step.order comparators).release inputs {}).result = .ok outputs ∧
      ∃ order : List (Value × Nat), order.Perm inputs.zipIdx ∧ order.map (·.1) = outputs ∧
        order.Pairwise fun a b =>
          let ordering := Comparator.combined key comparators a.1 b.1
          ordering = .lt ∨ ordering = .eq ∧ a.2 < b.2 := by
  intro comparators inputs outputs key
  have hread : (Step.order comparators).ReadOnly := Step.readOnly_of_isPlain (by decide)
  have hkey : ∀ c ∈ comparators, ∀ v ∈ inputs, c.evaluate {} v = .ok (key c v) := by
    simp only [comparators, inputs, List.forall_mem_cons]
    exact ⟨⟨rfl, rfl, rfl, rfl, nofun⟩, ⟨rfl, rfl, rfl, rfl, nofun⟩, nofun⟩
  have hsmall : ∀ c ∈ comparators, ∀ v ∈ inputs, ∀ n : Int64, .integer n ∈ (key c v).parts →
      n.toInt.natAbs ≤ 2 ^ 53 := by
    simp [comparators, inputs, key, Value.parts]
  have hresult : ((Step.order comparators).release inputs {}).result = .ok outputs := by
    decide +kernel
  obtain ⟨order, hperm, hvalues, hsorted⟩ := Step.order_stable hread hkey hsmall
  rw [hresult] at hvalues
  exact ⟨hresult, order, hperm, (Except.ok.inj hvalues).symm, hsorted⟩

end GraphTraversal
