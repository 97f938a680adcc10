import Mathlib.Data.List.ReduceOption
import GraphTraversal.Proofs.Data.Except
import GraphTraversal.Proofs.Step.Routing

/-! # Projecting round robin

A projection asks the pipelines of its ring for the values of its names, one after another and over
again.  The ring starts over with every input, so which pipeline a name gets depends on its place alone:
not on the inputs that came before, nor on an error that broke one of them off, nor on names that got no
value.
-/

namespace GraphTraversal

/-! ## Values by place -/

namespace Pipeline

/-- What the pipeline whose turn it is makes of an input for the name in the place `i`: its first result,
if there is one, or the input itself if there is no pipeline. -/
def inTurn (bys : List Pipeline) (v : Value) (i : Nat) (g : Graph) :
    Except Error (Option Value) × Graph :=
  match bys[i % bys.length]? with
  | none => (.ok (some v), g)
  | some p => (p.first p.machine v g).seen

def graphBefore (bys : List Pipeline) (v : Value) (g : Graph) : Nat → Graph
  | 0 => g
  | i + 1 => (inTurn bys v i (graphBefore bys v g i)).2

def valueAt (bys : List Pipeline) (v : Value) (g : Graph) (i : Nat) : Except Error (Option Value) :=
  (inTurn bys v i (graphBefore bys v g i)).1

theorem graphBefore_nil (v : Value) (g : Graph) (i : Nat) : graphBefore [] v g i = g := by
  induction i with
  | zero => rfl
  | succ i ih => exact ih

end Pipeline

open Pipeline

/-! ## Rings under way -/

/-- A ring of pipelines, equal to `bys` when rewound, that comes to the name in the place `i`. -/
structure Ring.ComesTo (bys : List Pipeline) (i : Nat) (r : Ring Pipeline) : Prop where
  items : r.items.map Pipeline.rewound = bys.map Pipeline.rewound
  turn : r.items ≠ [] → r.turn = i % bys.length

namespace Ring.ComesTo

variable {bys : List Pipeline} {i n : Nat} {r : Ring Pipeline}

theorem start (bys : List Pipeline) : (ofList bys).reset.ComesTo bys 0 := ⟨rfl, fun _ => rfl⟩

/-- The ring hands out the pipeline whose turn it is, and goes on to the next. -/
theorem nextValue (h : r.ComesTo bys i) (hn : ∀ p ∈ bys, p.height ≤ n) (v : Value) (g : Graph) :
    (r.nextValue (Step.machine n) v g).seen = inTurn bys v i g ∧
      (r.nextValue (Step.machine n) v g).state.ComesTo bys (i + 1) := by
  have hlength : r.items.length = bys.length := by
    simpa using congrArg List.length h.items
  have hrewound := (r.nextValue_rewound (Step.machine_keeps n) v g).trans h.items
  by_cases hitems : r.items = []
  · obtain rfl : bys = [] := List.length_eq_zero_iff.1 (hlength.symm.trans (by simp [hitems]))
    obtain ⟨items, cursor⟩ := r
    obtain rfl : items = [] := hitems
    exact ⟨rfl, hrewound, fun hne => absurd rfl hne⟩
  · have hpos : 0 < bys.length := hlength ▸ List.length_pos_iff.2 hitems
    have hi : i % bys.length < bys.length := Nat.mod_lt i hpos
    have hi' : i % bys.length < r.items.length := hlength.symm ▸ hi
    have hpq : r.items[i % bys.length].rewound = bys[i % bys.length].rewound := by
      have hget := congrArg (·[i % bys.length]?) h.items
      simpa [List.getElem?_eq_getElem, hi, hi'] using hget
    have hheight : r.items[i % bys.length].height ≤ n := by
      rw [← height_rewound, hpq, height_rewound]
      exact hn _ (List.getElem_mem hi)
    have hseen := seen_first hpq hheight v g
    have hnext : r.next? = some (r.items[i % bys.length], ⟨r.items, some (i % bys.length)⟩) := by
      rw [next?_eq hitems, h.turn hitems, List.getElem?_eq_getElem hi']
      rfl
    have hstate : (r.nextValue (Step.machine n) v g).state =
        (⟨r.items, some (i % bys.length)⟩ : Ring Pipeline).setCurrent
          (r.items[i % bys.length].first (Step.machine n) v g).state := by
      simp only [Ring.nextValue, hnext]
    refine ⟨?_, hrewound, fun _ => ?_⟩
    · simp only [inTurn, List.getElem?_eq_getElem hi, ← hseen]
      simp only [Ring.nextValue, hnext]
      rfl
    · rw [hstate]
      simp only [setCurrent, Ring.turn, List.length_set, hlength]
      rw [Nat.mod_add_mod]

end Ring.ComesTo

/-! ## Projections -/

def Pipeline.entryAt (bys : List Pipeline) (v : Value) (g : Graph) (p : String × Nat) :
    Except Error (Option (Value × Value)) :=
  (valueAt bys v g p.2).map (·.map (.string p.1, ·))

theorem projectEntries_eq {bys : List Pipeline} {i n : Nat} {r : Ring Pipeline} (hr : r.ComesTo bys i)
    (hn : ∀ p ∈ bys, p.height ≤ n) (v : Value) (g : Graph) (names : List String) :
    let o := projectEntries (Step.machine n) v names r (graphBefore bys v g i)
    o.result = ((names.zipIdx i).mapM (entryAt bys v g)).map List.reduceOption ∧
      ∀ entries, o.result = .ok entries → o.graph = graphBefore bys v g (i + names.length) := by
  induction names generalizing i r with
  | nil => exact ⟨rfl, fun _ _ => rfl⟩
  | cons name names ih =>
    obtain ⟨hseen, hstate⟩ := hr.nextValue hn v (graphBefore bys v g i)
    obtain ⟨hresult, hgraph⟩ := Prod.mk.inj hseen
    change _ = valueAt bys v g i at hresult
    change _ = graphBefore bys v g (i + 1) at hgraph
    obtain ⟨hrest, hend⟩ := ih hstate
    simp only [projectEntries, List.zipIdx_cons, List.mapM_cons, entryAt, hresult, hgraph]
    cases valueAt bys v g i with
    | error e =>
      refine ⟨rfl, fun entries h => ?_⟩
      cases h
    | ok found =>
      refine ⟨?_, fun entries h => ?_⟩
      · simp only [hrest]
        cases (names.zipIdx (i + 1)).mapM (entryAt bys v g) with
        | error e => rfl
        | ok entries => cases found <;> rfl
      · obtain ⟨entries, hentries, -⟩ := Except.exists_of_map h
        rw [hend entries hentries, List.length_cons, Nat.add_right_comm, Nat.add_assoc]

/-- The entries fail with the first of the values that fails. -/
theorem mapM_entryAt_eq_error_iff {bys : List Pipeline} {v : Value} {g : Graph} {names : List String}
    {e : Error} : names.zipIdx.mapM (entryAt bys v g) = .error e ↔
      ∃ i < names.length, valueAt bys v g i = .error e ∧ ∀ j < i, ∃ w, valueAt bys v g j = .ok w := by
  have hentry {i : Nat} (hi : i < names.length) : names.zipIdx[i]?.map (entryAt bys v g) =
      some ((valueAt bys v g i).map (·.map (.string names[i], ·))) := by
    rw [List.getElem?_zipIdx, List.getElem?_eq_getElem hi, Nat.zero_add]
    rfl
  rw [Except.mapM_eq_error_iff]
  constructor
  · rintro ⟨i, hi, hbefore⟩
    have hlt : i < names.length := by
      by_contra hge
      rw [List.getElem?_eq_none (by simpa using hge)] at hi
      cases hi
    rw [hentry hlt, Option.some_inj] at hi
    refine ⟨i, hlt, ?_, fun j hj => ?_⟩
    · cases hvalue : valueAt bys v g i with
      | error e' =>
        rw [hvalue] at hi
        cases hi
        rfl
      | ok w =>
        rw [hvalue] at hi
        cases hi
    · obtain ⟨entry, hj'⟩ := hbefore j hj
      rw [hentry (hj.trans hlt), Option.some_inj] at hj'
      obtain ⟨w, hw, -⟩ := Except.exists_of_map hj'
      exact ⟨w, hw⟩
  · rintro ⟨i, hlt, hi, hbefore⟩
    refine ⟨i, by rw [hentry hlt, hi]; rfl, fun j hj => ?_⟩
    obtain ⟨w, hw⟩ := hbefore j hj
    exact ⟨_, by rw [hentry (hj.trans hlt), hw]; rfl⟩

theorem mapM_entryAt_eq_ok {bys : List Pipeline} {v : Value} {g : Graph} {names : List String}
    {w : Nat → Option Value} (hw : ∀ i < names.length, valueAt bys v g i = .ok (w i)) :
    names.zipIdx.mapM (entryAt bys v g) =
      .ok (names.zipIdx.map fun p => (w p.2).map (.string p.1, ·)) := by
  refine Except.mapM_eq (List.forall₂_map_right_iff.2 (List.forall₂_same.2 fun p hp => ?_))
  obtain ⟨-, hlt, -⟩ := List.mem_zipIdx hp
  rw [entryAt, hw p.2 (by omega)]
  rfl

/-- A pipeline that changes nothing leaves the graph as it is for the next name. -/
theorem graphBefore_of_readOnly {bys : List Pipeline} (h : ∀ p ∈ bys, p.ReadOnly) (v : Value)
    (g : Graph) (i : Nat) : graphBefore bys v g i = g := by
  induction i with
  | zero => rfl
  | succ i ih =>
    rw [graphBefore, ih, inTurn]
    split
    · rfl
    · next p hp =>
      exact (p.first_eq Step.machine_layered (h p (List.mem_of_getElem? hp)) le_rfl v).2

namespace Step

/-- A projection that was evaluated before expands as a fresh one does. -/
theorem expand_project {names : List String} {bys : List Pipeline} {t : Step}
    (h : Used (.project names (.ofList bys)) t) (v : Value) (g : Graph) :
    (t.expand v g).result = (names.zipIdx.mapM (entryAt bys v g)).map
        (fun entries => [.map entries.reduceOption]) ∧
      ∀ l, (t.expand v g).result = .ok l → (t.expand v g).graph = graphBefore bys v g names.length := by
  obtain ⟨n, hn⟩ := (Step.project names (.ofList bys)).exists_height_eq_succ
  obtain ⟨hresult, hgraph⟩ := expand_of_rewound h.rewound v g
  have hheights : ∀ p ∈ bys, p.height ≤ n := fun p hp => height_le_succ_iff.1 hn.le p hp
  obtain ⟨hentries, hend⟩ := projectEntries_eq (.start bys) hheights v g names
  rw [hresult, hgraph, expand, hn]
  refine ⟨?_, fun l hl => ?_⟩
  · change Except.map _ _ = _
    rw [graphBefore] at hentries
    rw [hentries]
    cases names.zipIdx.mapM (entryAt bys v g) <;> rfl
  · obtain ⟨entries, hok, -⟩ := Except.exists_of_map hl
    have hgraph := hend entries hok
    rwa [Nat.zero_add] at hgraph

/-- A projection assigns its pipelines to its names round robin, whatever it was evaluated on before and
whether or not that failed.  The name in the place `i` gets the first result of the pipeline in the place
`i` modulo their number, on the graph that the pipelines before it leave behind; a name without a value is
left out, and shifts nothing.  The projection fails just if one of the pipelines fails, with the error of
the first.  Without pipelines every name gets the input, and pipelines that only read all see the same
graph. -/
theorem project_in_turn {names : List String} {bys : List Pipeline} {t : Step}
    (h : Used (.project names (.ofList bys)) t) (v : Value) (g : Graph) :
    (∀ w : Nat → Option Value, (∀ i < names.length, valueAt bys v g i = .ok (w i)) →
      (t.expand v g).seen = (.ok [.map (names.zipIdx.filterMap fun p => (w p.2).map (.string p.1, ·))],
        graphBefore bys v g names.length)) ∧
    (∀ e, (t.expand v g).result = .error e ↔ ∃ i < names.length, valueAt bys v g i = .error e ∧
      ∀ j < i, ∃ w, valueAt bys v g j = .ok w) ∧
    (bys = [] → (t.expand v g).seen = (.ok [.map (names.map fun name => (.string name, v))], g)) ∧
    ((∀ p ∈ bys, p.ReadOnly) → ∀ i, graphBefore bys v g i = g) := by
  obtain ⟨hresult, hgraph⟩ := expand_project h v g
  have hvalues (w : Nat → Option Value) (hw : ∀ i < names.length, valueAt bys v g i = .ok (w i)) :
      (t.expand v g).seen = (.ok [.map (names.zipIdx.filterMap fun p => (w p.2).map (.string p.1, ·))],
        graphBefore bys v g names.length) := by
    rw [mapM_entryAt_eq_ok hw] at hresult
    refine Prod.ext (hresult.trans ?_) (hgraph _ hresult)
    simp only [Except.map, List.reduceOption, List.filterMap_map]
    rfl
  refine ⟨hvalues, fun e => ?_, ?_, fun hread i => graphBefore_of_readOnly hread v g i⟩
  · rw [← mapM_entryAt_eq_error_iff, hresult]
    cases names.zipIdx.mapM (entryAt bys v g) <;> simp [Except.map]
  · rintro rfl
    have hinput := hvalues (fun _ => some v) fun i _ => rfl
    have hentries : names.zipIdx.filterMap (fun p => (some v).map (Value.string p.1, ·)) =
        names.map fun name => (.string name, v) := by
      rw [← List.zipIdx_map_fst 0 names, List.map_map, List.zipIdx_map_fst]
      exact congrFun List.filterMap_eq_map _
    rwa [graphBefore_nil, hentries] at hinput

/-- The string breaks the rotation off at the second name.  With the vertex it starts over; the second
name gets no value, the third gets the first pipeline again. -/
theorem project_skips_without_shift :
    let names := ["a", "b", "c"]
    let bys : List Pipeline := [{ steps := [.identity] }, { steps := [.adjacent .outward []] }]
    let s : Step := .project names (.ofList bys)
    let t : Step := (s.expand (.string "lop") .empty).state
    (s.expand (.string "lop") .empty).result =
        .error (.execution (.expectsVertex "adjacent" "string")) ∧
      (t.expand (.vertex ⟨1⟩) .empty).seen =
        (.ok [.map [(.string "a", .vertex ⟨1⟩), (.string "c", .vertex ⟨1⟩)]], .empty) := by
  intro names bys s t
  have h : Used s t := .expanded (.never s) (.string "lop") .empty
  have hvalues : ∀ i < names.length,
      valueAt bys (.vertex ⟨1⟩) .empty i = .ok (if i = 1 then none else some (.vertex ⟨1⟩)) := by
    decide
  exact ⟨by decide, ((project_in_turn h (.vertex ⟨1⟩) .empty).1 _ hvalues).trans (by decide)⟩

end Step

end GraphTraversal
