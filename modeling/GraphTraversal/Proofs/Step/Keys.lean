import GraphTraversal.Proofs.Data.Except
import GraphTraversal.Proofs.Step.Acts

/-! # Keys of barriers

A barrier works out something for each of its inputs by itself, a key to count or keys to sort by, and
makes its outputs of all of them together.  On a graph that the children leave alone the key of an input
is a function of the input; cursors and earlier inputs have no part in it.
-/

namespace GraphTraversal

variable {g : Graph} {n : Nat}

/-! ## Keys to count -/

/-- The key that counts for an input, if it has one: what the first pipeline yields first, or the input
itself. -/
def Ring.groupKey (g : Graph) (r : Ring Pipeline) (v : Value) : Except Error (Option Value) :=
  match r.items with
  | [] => .ok (some v)
  | p :: _ => (p.deliver Step.machine g [.ok v]).first

def countKeys (counts : List (Value × Nat)) (keys : List (Option Value)) : List (Value × Nat) :=
  keys.foldl (fun counts key => key.elim counts (countKey · counts)) counts

/-- Children that change nothing and that the machine for the height `n` evaluates. -/
abbrev Harmless (n : Nat) (p : Pipeline) : Prop := p.ReadOnly ∧ p.height ≤ n

theorem harmless_of_rewound {l l' : List Pipeline} (h : l.map Pipeline.rewound = l'.map Pipeline.rewound)
    (hl' : ∀ p ∈ l', Harmless n p) : ∀ p ∈ l, Harmless n p := by
  refine forall_mem_left (forall₂_imp_of_mem (forall₂_of_map_eq h) fun p _ q hq hpq => ?_) fun _ _ h => h
  obtain ⟨hread, hheight⟩ := hl' q hq
  rw [← Pipeline.readOnly_rewound_iff, ← hpq, Pipeline.readOnly_rewound_iff] at hread
  rw [← Pipeline.height_rewound, ← hpq, Pipeline.height_rewound] at hheight
  exact ⟨hread, hheight⟩

namespace Ring

theorem groupKey_of_rewound {r r' : Ring Pipeline}
    (h : r.items.map Pipeline.rewound = r'.items.map Pipeline.rewound)
    (hr : ∀ p ∈ r.items, p.ReadOnly) : r.groupKey g = r'.groupKey g := by
  obtain ⟨items, cursor⟩ := r
  obtain ⟨items', cursor'⟩ := r'
  funext v
  cases items with
  | nil =>
    obtain rfl := List.map_eq_nil_iff.1 h.symm
    rfl
  | cons p items =>
    cases items' with
    | nil => cases h
    | cons p' items' =>
      obtain ⟨hp, -⟩ := List.cons_eq_cons.1 h
      have hdeliver := Pipeline.deliver_eq_of_rewound Step.machine_layered (g := g) hp
        (hr p List.mem_cons_self) [.ok v]
      simp only [groupKey, hdeliver]

/-- A ring that starts over yields the key of the input. -/
theorem nextValue_reset {r : Ring Pipeline} (hr : ∀ p ∈ r.items, Harmless n p) (v : Value) :
    (r.reset.nextValue (Step.machine n) v g).result = r.groupKey g v ∧
      (r.reset.nextValue (Step.machine n) v g).graph = g := by
  obtain ⟨items, cursor⟩ := r
  cases items with
  | nil => exact ⟨rfl, rfl⟩
  | cons p items =>
    obtain ⟨hread, hheight⟩ := hr p List.mem_cons_self
    obtain ⟨hresult, hgraph⟩ := p.first_eq Step.machine_layered hread hheight (g := g) v
    exact ⟨hresult, hgraph⟩

end Ring

theorem groupCounts_eq {r : Ring Pipeline} (hr : ∀ p ∈ r.items, Harmless n p) (l : List Value)
    (counts : List (Value × Nat)) :
    (groupCounts (Step.machine n) r l counts g).result =
      (l.mapM (r.groupKey g)).map (countKeys counts) := by
  induction l generalizing r counts with
  | nil => rfl
  | cons v l ih =>
    obtain ⟨hresult, hgraph⟩ := Ring.nextValue_reset (g := g) hr v
    have hrewound := r.reset.nextValue_rewound (Step.machine_keeps n) v g
    have hrest := harmless_of_rewound hrewound hr
    have hkey : (r.reset.nextValue (Step.machine n) v g).state.groupKey g = r.groupKey g :=
      Ring.groupKey_of_rewound hrewound fun p hp => (hrest p hp).1
    have hcounts := ih hrest
    rw [hkey] at hcounts
    rw [groupCounts, List.mapM_cons, hresult, hgraph]
    cases r.groupKey g v with
    | error e => rfl
    | ok key => cases key <;> simp only [hcounts] <;> cases l.mapM (r.groupKey g) <;> rfl

/-! ## Keys to sort by -/

namespace Comparator

def key (g : Graph) (v : Value) : Comparator → Except Error Value
  | .self _ => .ok v
  | .by child => ((child.deliver Step.machine g [.ok v]).first).map (·.getD .null)

def withKeys (g : Graph) (l : List Comparator) (v : Value) : Except Error (List Value × Value) :=
  (l.mapM (key g v)).map (·, v)

abbrev Harmless (n : Nat) (l : List Comparator) : Prop :=
  ∀ p ∈ l.filterMap (·.child?), GraphTraversal.Harmless n p

theorem keysOf_eq {l : List Comparator} (hl : Harmless n l) (v : Value) :
    (keysOf (Step.machine n) v l g).result = l.mapM (key g v) ∧
      (keysOf (Step.machine n) v l g).graph = g := by
  induction l with
  | nil => exact ⟨rfl, rfl⟩
  | cons c l ih =>
    cases c with
    | self order =>
      obtain ⟨hresult, hgraph⟩ := ih hl
      refine ⟨?_, hgraph⟩
      rw [keysOf, hresult, List.mapM_cons]
      rfl
    | «by» p =>
      obtain ⟨⟨hread, hheight⟩, hrest⟩ := List.forall_mem_cons.1 hl
      obtain ⟨hresult, hgraph⟩ := p.first_eq Step.machine_layered hread hheight (g := g) v
      obtain ⟨hresult', hgraph'⟩ := ih hrest
      rw [keysOf, List.mapM_cons, key]
      cases hfirst : (p.deliver Step.machine g [.ok v]).first with
      | error e =>
        simp only [hresult, hfirst, hgraph]
        exact ⟨rfl, trivial⟩
      | ok found =>
        simp only [hresult, hfirst, hgraph, hresult', hgraph']
        exact ⟨rfl, trivial⟩

theorem harmless_of_rewound {l l' : List Comparator} (h : l.map rewound = l'.map rewound)
    (hl' : Harmless n l') : Harmless n l := by
  refine GraphTraversal.harmless_of_rewound ?_ hl'
  have hchildren (l : List Comparator) : (l.filterMap (·.child?)).map Pipeline.rewound =
      (Step.order (l.map rewound)).children := by
    rw [← rewoundAll_eq]
    exact (Step.children_rewound (.order l)).symm
  rw [hchildren, h, hchildren]

theorem keys_of_rewound {l l' : List Comparator} (h : l.map rewound = l'.map rewound)
    (hl : Harmless n l) (v : Value) : l.mapM (key g v) = l'.mapM (key g v) := by
  induction l generalizing l' with
  | nil => rw [List.map_eq_nil_iff.1 h.symm]
  | cons c l ih =>
    cases l' with
    | nil => cases h
    | cons c' l' =>
      obtain ⟨hc, hrest⟩ := List.cons_eq_cons.1 h
      have hkey : key g v c = key g v c' := by
        cases c with
        | self order =>
          cases c' with
          | self order' => rfl
          | «by» p' => cases hc
        | «by» p =>
          cases c' with
          | self order' => cases hc
          | «by» p' =>
            have hread := (hl p List.mem_cons_self).1
            rw [key, key, Pipeline.deliver_eq_of_rewound Step.machine_layered (by.inj hc) hread]
      have hl : Harmless n l := fun p hp =>
        hl p (((List.sublist_cons_self c l).filterMap _).subset hp)
      rw [List.mapM_cons, List.mapM_cons, hkey, ih hrest hl]

/-- Sorting works out the keys of every input by itself. -/
theorem keyed_eq {l : List Comparator} (hl : Harmless n l) (inputs : List Value) :
    (keyed (Step.machine n) l inputs g).result = inputs.mapM (withKeys g l) := by
  induction inputs generalizing l with
  | nil => rfl
  | cons v inputs ih =>
    obtain ⟨hresult, hgraph⟩ := keysOf_eq (g := g) hl v
    have hrewound := keysOf_rewound (Step.machine_keeps n) l v g
    have hrest := harmless_of_rewound hrewound hl
    have hkeys : withKeys g (keysOf (Step.machine n) v l g).state = withKeys g l := by
      funext w
      rw [withKeys, keys_of_rewound hrewound hrest, ← withKeys]
    have hkeyed := ih hrest
    rw [hkeys] at hkeyed
    rw [keyed, List.mapM_cons, hresult, hgraph, withKeys]
    cases l.mapM (key g v) with
    | error e => rfl
    | ok keys =>
      simp only [hkeyed]
      cases inputs.mapM (withKeys g l) <;> rfl

theorem sort_eq {l : List Comparator} (hl : Harmless n l) (hempty : l.isEmpty = false)
    (inputs : List Value) :
    (sort (Step.machine n) l inputs g).result =
      (inputs.mapM (withKeys g l)).bind (arrangeKeyed (l.map (·.sortOrder))) := by
  simp only [sort, hempty, Bool.false_eq_true, if_false, keyed_eq hl]

end Comparator

/-! ## Releases -/

/-- A barrier that changes nothing works out something for each input by itself, and makes its outputs
of all of it, which it can at least if there is only one input. -/
theorem Step.release_eq {s : Step} (hs : s.ReadOnly) (hb : s.isBarrier = true) (g : Graph) :
    ∃ (κ : Type) (key : Value → Except Error κ) (make : List κ → Except Error (List Value)),
      (∀ k, ∃ r, make [k] = .ok r) ∧ ∀ l, (s.release l g).result = (l.mapM key).bind make := by
  obtain ⟨n, hn⟩ := s.exists_height_eq_succ
  have hchildren : ∀ p ∈ s.children, Harmless n p := fun p hp =>
    ⟨hs.2 p hp, height_le_succ_iff.1 hn.le p hp⟩
  cases s with
  | count =>
    refine ⟨Value, .ok, fun l => .ok [.ofSize l.length], fun _ => ⟨_, rfl⟩, fun l => ?_⟩
    rw [Except.mapM_eq (List.forall₂_same.2 fun _ _ => rfl)]
    rfl
  | groupCount ring =>
    refine ⟨_, ring.groupKey g, fun keys => .ok [countMap (countKeys [] keys)], fun _ => ⟨_, rfl⟩,
      fun l => ?_⟩
    simp only [release, hn, machine, releaseWith]
    rw [groupCounts_eq hchildren]
    cases l.mapM (ring.groupKey g) <;> rfl
  | order comparators =>
    cases hempty : comparators.isEmpty with
    | true =>
      refine ⟨Value, .ok, Comparator.arrange Value.before 32 ([·]), fun k =>
        ⟨_, Comparator.arrange_short _ (Nat.le_add_left 1 19)⟩, fun l => ?_⟩
      rw [Except.mapM_eq (List.forall₂_same.2 fun _ _ => rfl)]
      simp only [release, hn, machine, releaseWith, Comparator.sort, hempty, if_true]
      rfl
    | false =>
      let orders := comparators.map (·.sortOrder)
      refine ⟨_, Comparator.withKeys g comparators, Comparator.arrangeKeyed orders, fun k =>
        ⟨_, Comparator.arrangeKeyed_short (Nat.le_add_left 1 19)⟩, fun l => ?_⟩
      simp only [release, hn, machine, releaseWith]
      exact Comparator.sort_eq hchildren hempty l
  | _ => cases hb

/-- If one input of a batch has no key, the whole batch fails, with the error of the first such input. -/
theorem Step.release_fails {s : Step} (hs : s.ReadOnly) (hb : s.isBarrier = true) {g : Graph}
    {l : List Value} {x : Value} (hx : x ∈ l) {e : Error} (hfail : (s.release [x] g).result = .error e) :
    ∃ u y w e', l = u ++ y :: w ∧ (∀ v ∈ u, ∃ r, (s.release [v] g).result = .ok r) ∧
      (s.release [y] g).result = .error e' ∧ (s.release l g).result = .error e' := by
  obtain ⟨κ, key, make, hmake, hrelease⟩ := release_eq hs hb g
  have hone (v : Value) : (s.release [v] g).result = (key v).bind fun k => make [k] := by
    rw [hrelease, List.mapM_cons]
    cases key v <;> rfl
  obtain ⟨e, hkey⟩ : ∃ e, key x = .error e := by
    rw [hone] at hfail
    cases hk : key x with
    | error e => exact ⟨e, rfl⟩
    | ok k =>
      obtain ⟨r, hr⟩ := hmake k
      rw [hk, Except.bind, hr] at hfail
      cases hfail
  obtain ⟨u, y, w, e', rfl, hu, hy⟩ := Except.exists_first_error hx hkey
  refine ⟨u, y, w, e', rfl, fun v hv => ?_, ?_, ?_⟩
  · obtain ⟨k, hk⟩ := hu v hv
    obtain ⟨r, hr⟩ := hmake k
    exact ⟨r, by rw [hone, hk]; exact hr⟩
  · rw [hone, hy]
    rfl
  · rw [hrelease, Except.mapM_eq_error hu hy]
    rfl

end GraphTraversal
