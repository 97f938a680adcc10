import GraphTraversal.Proofs.Step.Chains
import GraphTraversal.Proofs.Step.Rounds

/-! # Unrolling

A step that repeats its child expands a value through all the rounds at once.  The steps of the child,
written out as often, expand it little by little, and what they have not yet handed on waits in their
stages.  If the child changes nothing and never fails, and no step of it is a barrier or a limit, both
bring the same, as long as the steps behind do not change the graph that the waiting values will see.
-/

namespace GraphTraversal

/-! ## Results without failures -/

namespace Results

/-- Values of a class that become values of the class. -/
theorem spread_within {f : Value → Except Error (List Value)} {S : Value → Prop} {l : List Value}
    (hl : ∀ v ∈ l, S v)
    (h : ∀ v, S v → ∃ l', f v = .ok l' ∧ ∀ w ∈ l', S w) :
    ∃ l', spread f (ofValues l) = ofValues l' ∧ ∀ w ∈ l', S w := by
  induction l with
  | nil => exact ⟨[], rfl, nofun⟩
  | cons v l ih =>
    obtain ⟨hv, hl⟩ := List.forall_mem_cons.1 hl
    obtain ⟨l₁, hl₁, hS₁⟩ := h v hv
    obtain ⟨l₂, hl₂, hS₂⟩ := ih hl
    refine ⟨l₁ ++ l₂, ?_, List.forall_mem_append.2 ⟨hS₁, hS₂⟩⟩
    rw [ofValues_append, ← hl₂, ofValues, List.map_cons, spread, hl₁]
    rfl

/-- To collect all results is to find no error among them. -/
theorem collect_eq_ok_iff {l : Results} {w : List Value} : collect l = .ok w ↔ l = ofValues w := by
  induction l generalizing w with
  | nil => cases w <;> simp [collect, ofValues]
  | cons r l ih =>
    cases r with
    | error e => cases w <;> simp [collect, ofValues]
    | ok v =>
      constructor
      · intro h
        obtain ⟨w, hw, rfl⟩ := Except.exists_of_map h
        rw [ih.1 hw]
        rfl
      · rintro h
        obtain ⟨v, w, rfl, hv, hw⟩ := List.map_eq_cons_iff.1 h.symm
        cases hv
        rw [collect, ih.2 hw.symm]
        rfl

end Results

namespace Step

/-! ## Streams of a child -/

theorem streams_append_results {g : Graph} {steps : List Step} (h : ∀ s ∈ steps, s.kind = .expanding)
    (l l' : Results) : streams g steps (l ++ l') = streams g steps l ++ streams g steps l' := by
  induction steps generalizing l l' with
  | nil => rfl
  | cons s steps ih =>
    obtain ⟨hs, hsteps⟩ := List.forall_mem_cons.1 h
    rw [streams, streams, streams, List.foldl_cons, List.foldl_cons, List.foldl_cons,
      stream_of_expanding hs, stream_of_expanding hs, stream_of_expanding hs, Results.spread_append]
    exact ih hsteps _ _

theorem streams_within {S : Value → Prop} {g : Graph} {steps : List Step}
    (hkind : ∀ s ∈ steps, s.kind = .expanding)
    (h : ∀ s ∈ steps, ∀ v, S v → ∃ l, (s.expand v g).result = .ok l ∧ ∀ w ∈ l, S w) {l : List Value}
    (hl : ∀ v ∈ l, S v) : ∃ l', streams g steps (.ofValues l) = .ofValues l' ∧ ∀ w ∈ l', S w := by
  induction steps generalizing l with
  | nil => exact ⟨l, rfl, hl⟩
  | cons s steps ih =>
    obtain ⟨hs, hkind⟩ := List.forall_mem_cons.1 hkind
    obtain ⟨hfirst, h⟩ := List.forall_mem_cons.1 h
    obtain ⟨l₁, hl₁, hS⟩ := Results.spread_within hl hfirst
    rw [streams, List.foldl_cons, stream_of_expanding hs, hl₁]
    exact ih hkind h hS

theorem answer_eq_ok_iff {p : Pipeline} (hread : p.ReadOnly) {v : Value} {g : Graph} {l : List Value} :
    (p.answer v g).1 = .ok l ↔ streams g p.steps (.ofValues [v]) = .ofValues l := by
  have hanswer : (p.answer v g).1 = (p.deliver machine g (.ofValues [v])).collect :=
    (p.all_eq machine_layered hread le_rfl v).1
  rw [hanswer, ← p.stream_eq, Results.collect_eq_ok_iff]
  rfl

/-- A child never fails on a class of values if none of its steps does. -/
theorem neverFailsOn_of_steps {p : Pipeline} {S : Value → Prop} (hread : p.ReadOnly)
    (hkind : ∀ s ∈ p.steps, s.kind = .expanding)
    (h : ∀ s ∈ p.steps, ∀ v, S v → ∀ g, ∃ l, (s.expand v g).result = .ok l ∧ ∀ w ∈ l, S w) :
    p.NeverFailsOn S := by
  intro v hv g
  obtain ⟨l, hl, hS⟩ := streams_within (g := g) hkind (fun s hs v hv => h s hs v hv g)
    (List.forall_mem_singleton.2 hv)
  exact ⟨l, (answer_eq_ok_iff hread).2 hl, hS⟩

/-- The steps of the child, written out `k` times. -/
def unrolled (p : Pipeline) (k : Nat) : List Step := (List.replicate k p.steps).flatten

section Child

variable {p : Pipeline} {S : Value → Prop} (hS : p.NeverFailsOn S) (hread : p.ReadOnly)
  (hkind : ∀ s ∈ p.steps, s.kind = .expanding) (g : Graph)

include hS hread hkind

/-- Once through the steps of the child. -/
theorem streams_child {l : List Value} (hl : ∀ v ∈ l, S v) :
    streams g p.steps (.ofValues l) = .ofValues (l.flatMap (p.results g)) := by
  induction l with
  | nil => exact List.self_eq_append_right.1 (streams_append_results hkind [] [])
  | cons v l ih =>
    obtain ⟨hv, hl⟩ := List.forall_mem_cons.1 hl
    have hone := (answer_eq_ok_iff hread).1 (hS.answer_eq g hv).1
    rw [List.flatMap_cons, Results.ofValues_append, ← ih hl, ← hone, ← streams_append_results hkind]
    rfl

/-- And as often as it is written out. -/
theorem streams_unrolled {l : List Value} (hl : ∀ v ∈ l, S v) (k : Nat) :
    streams g (unrolled p k) (.ofValues l) = .ofValues ((List.flatMap (p.results g))^[k] l) := by
  induction k generalizing l with
  | zero => rfl
  | succ k ih =>
    rw [unrolled, List.replicate_succ, List.flatten_cons, streams_append,
      streams_child hS hread hkind g hl]
    exact ih (hS.iterate g hl 1)

end Child

/-! ## The chain of a repeated child -/

/-- All that is left to draw from the cells is in the class `S`. -/
def Brings (n : Nat) (S : Value → Prop) (g : Graph) (s : List (Cell Step) × List Value) : Prop :=
  ∀ l g', Drains (machine n).cellProducer s g l g' → ∀ v ∈ Results.values l, S v

theorem Brings.next {n : Nat} {S : Value → Prop} {g g' : Graph} {s s' : List (Cell Step) × List Value}
    {r : Except Error Value} (h : Brings n S g s)
    (hdraw : (machine n).cellProducer s g = ⟨some r, s', g'⟩) :
    Brings n S g' s' ∧ ∀ v, r = .ok v → S v := by
  have hnext {l : Results} {g₁ : Graph} (hl : Drains (machine n).cellProducer s' g' l g₁) :
      Drains (machine n).cellProducer s g (r :: l) g₁ := by
    refine .next (by rw [hdraw]) ?_
    rwa [hdraw]
  constructor
  · intro l g₁ hl v hv
    refine h _ g₁ (hnext hl) v ?_
    cases r with
    | ok w => exact List.mem_cons_of_mem w hv
    | error e => exact hv
  · rintro v rfl
    obtain ⟨l, g₁, hl⟩ := exists_drains (machine_keeps_kind n) s'.1 s'.2 g'
    exact h _ g₁ (hnext hl) v List.mem_cons_self

/-- A step that repeats its child, and the chain of the steps of the child, over the same cells: what the
step holds is what will come of what the chain holds. -/
structure Unrolls (n : Nat) (p : Pipeline) (k : Nat) (S : Value → Prop) (g : Graph) (x : Cell Step)
    (xs : List (Cell Step)) (s : List (Cell Step) × List Value) : Prop where
  cell : OpenAt (.repeat p (some k)) x
  chain : Chain g (unrolled p k).reverse xs x.stage.buffer
  brings : Brings n S g s

section Repeating

variable {n k : Nat} {p : Pipeline} {S : Value → Prop}

theorem plain_unrolled (hread : p.ReadOnly) (hkind : ∀ s ∈ p.steps, s.kind = .expanding)
    (hheight : p.height ≤ n) : ∀ t ∈ (unrolled p k).reverse, Plain n t := by
  intro t ht
  obtain ⟨steps, hsteps, ht⟩ := List.mem_flatten.1 (List.mem_reverse.1 ht)
  obtain rfl := List.eq_of_mem_replicate hsteps
  exact ⟨Pipeline.everywhere_iff.1 hread t ht, hkind t ht, Pipeline.height_le_iff.1 hheight t ht⟩

/-- All rounds for a value that does not fail. -/
theorem OpenAt.expand_repeat (hS : p.NeverFailsOn S) (hread : p.ReadOnly)
    (hn : (Step.repeat p (some k)).height ≤ n) {x : Cell Step} (hx : OpenAt (.repeat p (some k)) x)
    {v : Value} (hv : S v) (g : Graph) :
    ((machine n).expand x.step v g).seen = (.ok ((List.flatMap (p.results g))^[k] [v]), g) ∧
      ∀ l, OpenAt (.repeat p (some k))
        ⟨((machine n).expand x.step v g).state, { x.stage with buffer := l }⟩ := by
  obtain ⟨hseen, hopen⟩ := hx.expand hn v g
  rw [hseen, Step.expand_repeat, hS.levelAfter_eq g hread (List.forall_mem_singleton.2 hv)]
  exact ⟨rfl, hopen⟩

/-- A chain that stands for a step which holds nothing comes to be idle. -/
theorem Unrolls.idle (hplain : ∀ t ∈ (unrolled p k).reverse, Plain n t) {g : Graph} {x : Cell Step}
    {xs : List (Cell Step)} {s : List (Cell Step) × List Value} (h : Unrolls n p k S g x xs s)
    (hb : x.stage.buffer = []) : ∃ ys, Idle (unrolled p k).reverse ys ∧
      (machine n).cellProducer (xs ++ s.1, s.2) g = (machine n).cellProducer (ys ++ s.1, s.2) g := by
  have hsettles := settles_of_chain hplain h.chain s
  rwa [hb] at hsettles

/-- The chain stands in for the step as long as the graph stays as it is. -/
theorem unrolled_standsIn (hS : p.NeverFailsOn S) (hread : p.ReadOnly)
    (hkind : ∀ s ∈ p.steps, s.kind = .expanding) (hn : (Step.repeat p (some k)).height ≤ n) :
    StandsIn (machine n) Eq (Unrolls n p k S) := by
  have hheight : p.height ≤ n := by
    rw [height] at hn
    exact Nat.le_of_succ_le hn
  have hplain := plain_unrolled (k := k) hread hkind hheight
  have hm := machine_keeps_kind n
  constructor
  · intro g x xs s h
    exact ⟨h.cell.kind, h.cell.opened⟩
  · rintro g x xs s h _ rfl
    exact h
  · intro g x xs s v l h hb
    have hsettles := settles_of_chain hplain h.chain s
    rw [hb] at hsettles
    obtain ⟨ys, hys, hdraw⟩ := hsettles
    exact ⟨ys, hdraw, ⟨h.cell.step, h.cell.opened⟩, hys, h.brings⟩
  · intro g x xs s s' g' h hb hdraw
    obtain ⟨ys, hidle, heq⟩ := h.idle hplain hb
    rw [heq]
    exact ended_of_waits hm (hidle.waits hplain) hdraw
  · intro g x xs s e s' g' h hb hdraw
    obtain ⟨ys, hidle, heq⟩ := h.idle hplain hb
    rw [heq]
    refine ⟨ys, failed_of_waits hm (hidle.waits hplain) hdraw, h.cell, ?_, (h.brings.next hdraw).1⟩
    rw [hb]
    exact hidle.chain g'
  · intro g x xs s v s' g' h hb hdraw
    obtain ⟨ys, hidle, heq⟩ := h.idle hplain hb
    obtain ⟨hbrings, hv⟩ := h.brings.next hdraw
    have hthrough := streams_unrolled hS hread hkind g' (List.forall_mem_singleton.2 (hv v rfl)) k
    rw [← List.reverse_reverse (unrolled p k)] at hthrough
    have hpassed := settles_of_idle hplain hidle hdraw hthrough
    obtain ⟨hseen, hopen⟩ := h.cell.expand_repeat hS hread hn (hv v rfl) g'
    rw [heq]
    generalize (machine n).expand x.step v g' = o at hseen hopen
    obtain ⟨hresult, rfl⟩ := Prod.mk.inj hseen
    generalize (List.flatMap (p.results o.graph))^[k] [v] = w at hresult hpassed
    -- the first of the outputs is drawn, and the others are what will come of the chain
    cases w with
    | nil =>
      obtain ⟨zs, hidle, heq⟩ := hpassed
      exact .nothing hresult heq ⟨hopen [], hidle.chain _, hbrings⟩
    | cons u w =>
      obtain ⟨zs, hzs, heq⟩ := hpassed
      exact .value hresult heq ⟨hopen w, hzs, hbrings⟩

end Repeating

/-! ## Draining -/

/-- A step that only reads leaves the graph where it is. -/
theorem readOnly_bears (n : Nat) :
    Bears (machine n) Eq Eq fun s => s.ReadOnly ∧ s.height ≤ n := by
  rintro s ⟨hread, hheight⟩
  refine .inr ⟨fun h => h, fun v g => ⟨⟨?_, ?_⟩, ?_⟩⟩
  · rwa [← readOnly_rewound_iff, (machine_keeps n).expand, readOnly_rewound_iff]
  · rwa [← height_rewound, (machine_keeps n).expand, height_rewound]
  · rw [(machine_expand_eq hheight v g).2, hread.graph_expand]

/-- Behind a barrier any steps may stand: it gathers all before it hands on anything. -/
theorem tracks_behind_barrier {n : Nat}
    {R : Graph → List (Cell Step) × List Value → List (Cell Step) × List Value → Prop}
    (hR : (machine n).cellProducer.Tracks Eq (machine n).cellProducer R) {g : Graph}
    {s s' : List (Cell Step) × List Value} (hs : R g s s') {b : Step} (hb : b.isBarrier = true)
    (rest : List Step) :
    ∃ R', (machine n).cellProducer.Tracks (fun _ _ => True) (machine n).cellProducer R' ∧
      R' g (freshCells (b :: rest) ++ s.1, s.2) (freshCells (b :: rest) ++ s'.1, s'.2) := by
  have hm := machine_keeps_kind n
  have hbehind := Behind.simulates hm Eq.refl (fun _ => trivial) (fun _ _ _ _ _ => trivial)
    (.gathering _ Eq fun _ _ => True) hR
  have hkind : (machine n).kind b = .gathering := by
    rw [machine_layered.kind, kind_of_isBarrier hb]
  obtain ⟨R', hR', hs'⟩ := Producer.Tracks.behind hm (fun _ => trivial) (fun _ _ _ _ _ => trivial)
    (.all _) (hbehind.tracks hm) (.waiting (x := ⟨b, .fresh⟩) hkind rfl hs) (freshCells rest)
    fun x hx => ⟨trivial, (of_mem_freshCells hx).2⟩
  refine ⟨R', hR', ?_⟩
  simpa [freshCells] using hs'

section Draining

variable {p : Pipeline} {S : Value → Prop} (hS : p.NeverFailsOn S) (hread : p.ReadOnly)
  (hkind : ∀ s ∈ p.steps, s.kind = .expanding) {before quiet rest : List Step}
  (hquiet : ∀ s ∈ quiet, s.ReadOnly) (hrest : ∀ s ∈ rest.head?, s.isBarrier = true)

include hS hread hkind hquiet hrest

theorem drains_unrolled {n k : Nat} (hn : (Step.repeat p (some k)).height ≤ n)
    (hheights : ∀ s ∈ quiet, s.height ≤ n) {source : List Value} {g g' : Graph} {l : Results}
    (hbrings : Brings n S g (freshCells before, source)) :
    Drains (machine n).cellProducer
        (freshCells (before ++ .repeat p (some k) :: (quiet ++ rest)), source) g l g' ↔
      Drains (machine n).cellProducer
        (freshCells (before ++ unrolled p k ++ (quiet ++ rest)), source) g l g' := by
  have hm := machine_keeps_kind n
  have hstands := unrolled_standsIn (k := k) hS hread hkind hn
  have hunrolls : Unrolls n p k S g ⟨.repeat p (some k), .fresh⟩ (freshCells (unrolled p k))
      (freshCells before, source) := ⟨⟨rfl, rfl⟩, (idle_freshCells _).chain g, hbrings⟩
  obtain ⟨R, hR, hs⟩ := Producer.Tracks.behind hm Eq.refl (fun _ _ _ => Eq.trans) (readOnly_bears n)
    (hstands.simulates.tracks hm) (.running hunrolls) (freshCells quiet) fun x hx =>
      ⟨⟨hquiet _ (of_mem_freshCells hx).1, hheights _ (of_mem_freshCells hx).1⟩, (of_mem_freshCells hx).2⟩
  have hcells (steps : List Step) :
      freshCells (before ++ steps ++ (quiet ++ rest)) =
        freshCells rest ++ (freshCells quiet ++ (freshCells steps ++ freshCells before)) := by
    simp [freshCells]
  rw [List.append_cons, hcells, hcells]
  cases rest with
  | nil => exact hR.drains_iff hs
  | cons b rest =>
    obtain ⟨R', hR', hs'⟩ := tracks_behind_barrier hR hs (hrest b rfl) rest
    exact hR'.drains_iff hs'

end Draining

/-- Repeating is iterated composition.  Rounds add up: `a + b` rounds are `a` rounds and then, level by
level, `b` more on what these leave, with the same results, the same failure and the same graph.  If the
child changes nothing and never fails on values of the class `S`, which it does not leave, then `n` rounds
bring the results of mapping and joining `n` times, in order.  And if besides no step of the child is a
barrier or a limit, a pipeline that repeats it `n` times is drained as the pipeline with its steps written
out `n` times, with whatever steps before that bring values of the class, as long as the steps behind, up
to the first barrier, change nothing. -/
theorem repeat_iterates (p : Pipeline) :
    (∀ a b v g, ((Step.repeat p (some (a + b))).expand v g).seen =
      proceed ((Step.repeat p (some a)).expand v g).seen (p.levelAfter b)) ∧
    (p.ReadOnly → ∀ S, p.NeverFailsOn S →
      (∀ n v g, S v → ((Step.repeat p (some n)).expand v g).seen =
        (.ok ((List.flatMap (p.results g))^[n] [v]), g)) ∧
      ((∀ s ∈ p.steps, s.kind = .expanding) → ∀ n before quiet rest seeds g,
        (∀ l g', Drains producer (before, .start seeds before.length) g l g' →
          ∀ v ∈ Results.values l, S v) →
        (∀ s ∈ quiet, s.ReadOnly) → (∀ s ∈ rest.head?, s.isBarrier = true) →
          let one := before ++ .repeat p (some n) :: (quiet ++ rest)
          let many := before ++ unrolled p n ++ (quiet ++ rest)
          (∃ l g', Drains producer (one, .start seeds one.length) g l g') ∧
            ∀ l g', Drains producer (one, .start seeds one.length) g l g' ↔
              Drains producer (many, .start seeds many.length) g l g')) := by
  refine ⟨fun a b v g => ?_, fun hread S hS => ⟨fun n v g hv => ?_, ?_⟩⟩
  · rw [expand_repeat, expand_repeat, p.levelAfter_add]
  · rw [expand_repeat, hS.levelAfter_eq g hread (by simpa using hv)]
  · intro hkind n before quiet rest seeds g hbrings hquiet hrest one many
    constructor
    · obtain ⟨l, g', h⟩ := exists_drains (machine_keeps_kind (heights one)) (freshCells one) seeds g
      exact ⟨l, g', (drains_start_iff le_rfl).2 h⟩
    · intro l g'
      let k := max (heights one) (heights many)
      have hone : ∀ s ∈ one, s.height ≤ k := heights_le_iff.1 (le_max_left _ _)
      have hbefore : heights before ≤ k :=
        heights_le_iff.2 fun s hs => hone s (List.mem_append_left _ hs)
      rw [drains_start_iff (le_max_left _ _ : _ ≤ k), drains_start_iff (le_max_right _ _ : _ ≤ k)]
      exact drains_unrolled hS hread hkind hquiet hrest (hone _ (by simp [one]))
        (fun s hs => hone s (by simp [one, hs]))
        fun l g' h => hbrings l g' ((drains_start_iff hbefore).2 h)

/-- On a path of three vertices one of them has somewhere to walk to in two rounds; it is counted, and
only then is a fourth one added. -/
theorem walks_out_twice :
    let path := ((Graph.empty.addVertex "a").2.addVertex "a").2.addVertex "a" |>.2
    let g := ((path.addEdge ⟨1⟩ "next" ⟨2⟩).2.addEdge ⟨2⟩ "next" ⟨3⟩).2
    let out : Pipeline := { steps := [.adjacent .outward []] }
    let steps : List Step := [.vertices [], .repeat out (some 2), .label, .count, .addVertex "b"]
    ((Step.repeat out (some 2)).expand (.vertex ⟨1⟩) g).seen = (.ok [.vertex ⟨3⟩], g) ∧
      Drains producer (steps, .start [.null] steps.length) g [.ok (.vertex ⟨6⟩)]
        (g.addVertex "b").2 := by
  intro path g out steps
  have hread : out.ReadOnly := Pipeline.readOnly_of_isPlain (by decide)
  have hkind : ∀ s ∈ out.steps, s.kind = .expanding := by simp [out, kind, isBarrier]
  have hS : out.NeverFailsOn fun v => ∃ x, v = .vertex x := by
    refine neverFailsOn_of_steps hread hkind ?_
    rintro s hs _ ⟨x, rfl⟩ g
    obtain rfl := List.mem_singleton.1 hs
    refine ⟨_, rfl, ?_⟩
    simp
  have hbefore : ∀ l g', Drains producer ([.vertices []], .start [.null] 1) g l g' →
      ∀ v ∈ Results.values l, ∃ x, v = .vertex x := by
    intro l g' h
    have hlisted : Drains producer ([.vertices []], .start [.null] 1) g
        [.ok (.vertex ⟨1⟩), .ok (.vertex ⟨2⟩), .ok (.vertex ⟨3⟩)] g :=
      drains_streams (forall_readOnly_of_isPlain (by decide)) (by decide)
    obtain ⟨rfl, -⟩ := h.unique hlisted
    simp [Results.values]
  obtain ⟨hrounds, hunrolled⟩ := (repeat_iterates out).2 hread _ hS
  constructor
  · rw [hrounds 2 _ g ⟨⟨1⟩, rfl⟩]
    decide
  · let many := [.vertices []] ++ unrolled out 2 ++ ([.label] ++ [.count, .addVertex "b"])
    let counted := producer (many, .start [.null] many.length) g
    have hgraph : (producer counted.state counted.graph).graph = (g.addVertex "b").2 := by
      decide +kernel
    have hdrains : Drains producer (many, .start [.null] many.length) g [.ok (.vertex ⟨6⟩)]
        (producer counted.state counted.graph).graph :=
      .next (by decide +kernel) (.done (by decide +kernel))
    rw [hgraph] at hdrains
    exact ((hunrolled hkind 2 [.vertices []] [.label] [.count, .addVertex "b"] [.null] g hbefore
      (forall_readOnly_of_isPlain (by decide)) (by simp [isBarrier])).2 _ _).2 hdrains

/-- Two rounds list two vertices twice before one is added.  Written out, the child is drawn from again
after two have been added, and lists these as well. -/
theorem unrolled_lists_added :
    let all : Pipeline := { steps := [.vertices []] }
    let g := ((Graph.empty.addVertex "a").2.addVertex "a").2
    let one : List Step := [.vertices [.integer 1], .repeat all (some 2), .addVertex "b"]
    let many : List Step := [.vertices [.integer 1]] ++ unrolled all 2 ++ [.addVertex "b"]
    let four : Results := [.ok (.vertex ⟨3⟩), .ok (.vertex ⟨4⟩), .ok (.vertex ⟨5⟩), .ok (.vertex ⟨6⟩)]
    let six : Results := four ++ [.ok (.vertex ⟨7⟩), .ok (.vertex ⟨8⟩)]
    all.ReadOnly ∧ all.NeverFailsOn (fun _ => True) ∧ (∀ s ∈ all.steps, s.kind = .expanding) ∧
      (∃ g', Drains producer (one, .start [.null] one.length) g four g') ∧
      (∃ g', Drains producer (many, .start [.null] many.length) g six g') ∧
      ¬ ∃ g', Drains producer (many, .start [.null] many.length) g four g' := by
  intro all g one many four six
  have hread : all.ReadOnly := Pipeline.readOnly_of_isPlain (by decide)
  have hkind : ∀ s ∈ all.steps, s.kind = .expanding := by simp [all, kind, isBarrier]
  have hS : all.NeverFailsOn fun _ => True := by
    refine neverFailsOn_of_steps hread hkind fun s hs v _ g => ?_
    obtain rfl := List.mem_singleton.1 hs
    exact ⟨_, rfl, fun _ _ => trivial⟩
  have hmany : ∃ g', Drains producer (many, .start [.null] many.length) g six g' := by
    refine ⟨_, .next ?_ <| .next ?_ <| .next ?_ <| .next ?_ <| .next ?_ <| .next ?_ <| .done ?_⟩ <;>
      decide +kernel
  refine ⟨hread, hS, hkind, ?_, hmany, ?_⟩
  · refine ⟨_, .next ?_ <| .next ?_ <| .next ?_ <| .next ?_ <| .done ?_⟩ <;> decide +kernel
  · rintro ⟨g₁, hfour⟩
    obtain ⟨g₂, hsix⟩ := hmany
    have hsame : four.length = six.length := congrArg _ (hfour.unique hsix).1
    cases hsame

end Step

end GraphTraversal
