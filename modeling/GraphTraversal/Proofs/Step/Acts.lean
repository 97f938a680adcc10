import GraphTraversal.Proofs.Run.Delivery
import GraphTraversal.Proofs.Step.Correspondence
import GraphTraversal.Proofs.Step.Cursors

/-! # Steps as acts

On a graph that it does not change a step acts on values alone: where its cursors stand does not
matter, nor for how high a tree the machine was built.  This is shown for every family of machines that
is built layer by layer as the machines of steps are, with steps without children acting as they like.
-/

namespace GraphTraversal

def Step.isBranching : Step → Bool
  | .filter .. | .and _ | .repeat .. | .choose .. | .groupCount _ | .project .. | .order _ => true
  | _ => false

/-- Machines for growing heights: a step with a place for children evaluates them one layer below, and
any other step is the same in every layer and comes back as it is. -/
structure Layered (M : Nat → Machine Step) : Prop where
  kind : ∀ n s, (M n).kind s = s.kind
  keeps : ∀ n, (M n).Keeps Step.rewound
  expand_branching : ∀ n {s : Step}, s.isBranching = true → ∀ v g,
    (M (n + 1)).expand s v g = s.expandWith (M n) v g
  release_branching : ∀ n {s : Step}, s.isBranching = true → ∀ l g,
    (M (n + 1)).release s l g = s.releaseWith (M n) l g
  expand_leaf : ∀ n k {s : Step}, s.isBranching = false → ∀ v g,
    (M (n + 1)).expand s v g = (M (k + 1)).expand s v g
  release_count : ∀ n l g, (M (n + 1)).release .count l g = ⟨.ok [.ofSize l.length], .count, g⟩
  graph_leaf : ∀ n {s : Step}, s.isBranching = false → s.isMutating = false → ∀ v g,
    ((M (n + 1)).expand s v g).graph = g

theorem Step.machine_layered : Layered Step.machine where
  kind n s := by cases n <;> rfl
  keeps := Step.machine_keeps
  expand_branching _ _ _ _ _ := rfl
  release_branching _ _ _ _ _ := rfl
  expand_leaf n k s hs v g := by
    cases s with
    | filter | and | «repeat» | choose | groupCount | project | order => cases hs
    | _ => rfl
  release_count _ _ _ := rfl
  graph_leaf n s hs hm v g := by
    cases s with
    | filter | and | «repeat» | choose | groupCount | project | order => cases hs
    | addVertex | property | drop => cases hm
    | _ => rfl

/-! ## Steps that are equal when rewound -/

theorem Step.rewound_leaf {s : Step} (hs : s.isBranching = false) : s.rewound = s := by
  cases s with
  | filter | and | «repeat» | choose | groupCount | project | order => cases hs
  | _ => rfl

theorem Step.isBranching_rewound (s : Step) : s.rewound.isBranching = s.isBranching := by
  cases s <;> rfl

theorem Step.kind_of_isBarrier {s : Step} (h : s.isBarrier = true) : s.kind = .gathering := by
  cases s with
  | count | groupCount | order => rfl
  | _ => cases h

theorem Step.isBarrier_of_gathering {s : Step} (h : s.kind = .gathering) : s.isBarrier := by
  cases s with
  | count | groupCount | order => rfl
  | _ => cases h

theorem Step.eq_count_of_isBarrier {s : Step} (hs : s.isBranching = false) (h : s.isBarrier) :
    s = .count := by
  cases s with
  | count => rfl
  | groupCount | order => cases hs
  | _ => cases h

theorem Step.kind_rewound (s : Step) : s.rewound.kind = s.kind := by
  cases s <;> rfl

theorem Decision.related_of_rewound {d d' : Decision} (h : d.rewound = d'.rewound) :
    Decision.Related (fun p p' => p.rewound = p'.rewound) d d' := by
  cases d with
  | lambda test yes no =>
    cases d' with
    | lambda test' yes' no' =>
      simp only [rewound, Decision.lambda.injEq] at h
      rcases h with ⟨rfl, hyes, hno⟩
      exact .lambda test hyes hno
    | predicate => cases h
    | selector => rw [rewound_selector] at h; cases h
  | predicate test yes no =>
    cases d' with
    | lambda => cases h
    | predicate test' yes' no' =>
      simp only [rewound, Decision.predicate.injEq] at h
      rcases h with ⟨htest, hyes, hno⟩
      exact .predicate htest hyes hno
    | selector => rw [rewound_selector] at h; cases h
  | selector pick options fallback =>
    cases d' with
    | lambda => rw [rewound_selector] at h; cases h
    | predicate => rw [rewound_selector] at h; cases h
    | selector pick' options' fallback' =>
      simp only [rewound_selector, Decision.selector.injEq] at h
      rcases h with ⟨hpick, hoptions, hfallback⟩
      refine .selector hpick ((forall₂_of_map_eq hoptions).imp fun o o' => Prod.mk.inj) ?_
      cases fallback with
      | none =>
        cases fallback' with
        | none => exact .none
        | some p' => cases hfallback
      | some p =>
        cases fallback' with
        | none => cases hfallback
        | some p' => exact .some (Option.some.inj hfallback)

theorem Step.related_of_rewound {s s' : Step} (h : s.rewound = s'.rewound) (hs : s.isBranching) :
    Step.Related (fun p p' => p.rewound = p'.rewound) s s' := by
  cases s with
  | filter p injectedBy =>
    cases s' with
    | filter p' injectedBy' =>
      simp only [rewound, Step.filter.injEq] at h
      rcases h with ⟨hp, rfl⟩
      refine .filter ?_ injectedBy
      exact hp
    | _ => cases h
  | and l =>
    cases s' with
    | and l' =>
      simp only [rewound, Step.and.injEq, Pipeline.rewoundAll_eq] at h
      exact .and (forall₂_of_map_eq h)
    | _ => cases h
  | «repeat» p times =>
    cases s' with
    | «repeat» p' times' =>
      simp only [rewound, Step.repeat.injEq] at h
      rcases h with ⟨hp, rfl⟩
      refine .repeat ?_ times
      exact hp
    | _ => cases h
  | choose d phase =>
    cases s' with
    | choose d' phase' =>
      simp only [rewound, Step.choose.injEq, and_true] at h
      exact .choose (Decision.related_of_rewound h) phase phase'
    | _ => cases h
  | groupCount r =>
    cases s' with
    | groupCount r' =>
      simp only [rewound, Step.groupCount.injEq, Ring.mk.injEq, Pipeline.rewoundAll_eq] at h
      exact .groupCount (forall₂_of_map_eq h.1)
    | _ => cases h
  | project names r =>
    cases s' with
    | project names' r' =>
      simp only [rewound, Step.project.injEq, Ring.mk.injEq, Pipeline.rewoundAll_eq] at h
      rcases h with ⟨rfl, h, -⟩
      exact .project names (forall₂_of_map_eq h)
    | _ => cases h
  | order l =>
    cases s' with
    | order l' =>
      simp only [rewound, Step.order.injEq, Comparator.rewoundAll_eq] at h
      refine .order ((forall₂_of_map_eq h).imp fun c c' hcc => ?_)
      cases c with
      | «by» p =>
        cases c' with
        | «by» p' => exact .by (Comparator.by.inj hcc)
        | self o => cases hcc
      | self o =>
        cases c' with
        | «by» p' => cases hcc
        | self o' =>
          cases hcc
          exact .self o
    | _ => cases h
  | _ => cases hs

theorem Step.related_self {R : Pipeline → Pipeline → Prop} {s : Step} (hs : s.isBranching = true)
    (hR : ∀ c ∈ s.children, R c c) : Step.Related R s s := by
  cases s with
  | filter p injectedBy => exact .filter (hR p (by simp [Step.children])) injectedBy
  | and l => exact .and (List.forall₂_same.2 hR)
  | «repeat» p times => exact .repeat (hR p (by simp [Step.children])) times
  | choose d phase =>
    refine .choose ?_ phase phase
    cases d with
    | lambda test yes no =>
      exact .lambda test (hR yes (by simp [Step.children, Decision.children]))
        (hR no (by simp [Step.children, Decision.children]))
    | predicate test yes no =>
      exact .predicate (hR test (by simp [Step.children, Decision.children]))
        (hR yes (by simp [Step.children, Decision.children]))
        (hR no (by simp [Step.children, Decision.children]))
    | selector pick options fallback =>
      refine .selector (hR pick (by simp [Step.children, Decision.children]))
        (List.forall₂_same.2 fun o ho => ⟨rfl, hR o.2 ?_⟩) ?_
      · have hmem := List.mem_map_of_mem (f := (·.2)) ho
        simp [Step.children, Decision.children, hmem]
      · cases fallback with
        | none => exact .none
        | some p => exact .some (hR p (by simp [Step.children, Decision.children]))
  | groupCount r => exact .groupCount (List.forall₂_same.2 hR)
  | project names r => exact .project names (List.forall₂_same.2 hR)
  | order l =>
    refine .order (List.forall₂_same.2 fun c hc => ?_)
    cases c with
    | «by» p => exact .by (hR p (List.mem_filterMap.2 ⟨_, hc, rfl⟩))
    | self o => exact .self o
  | _ => cases hs

/-! ## Independence of cursors and layers -/

theorem Lambda.ReadOnly.keeps {l : Lambda} (h : l.ReadOnly) (G : Graph → Prop) : l.Keeps G :=
  fun v g hg => (h g v).symm ▸ hg

/-- What a class of steps and graphs needs for evaluations to stay in it. -/
structure Closed (M : Nat → Machine Step) (P : Step → Prop) (G : Graph → Prop) : Prop where
  rewound : ∀ {s s' : Step}, s.rewound = s'.rewound → s.Everywhere P → s'.Everywhere P
  graph : ∀ n {s : Step}, s.isBranching = false → P s → ∀ v {g}, G g →
    G ((M (n + 1)).expand s v g).graph
  lambda : ∀ {s : Step}, P s → ∀ l ∈ s.lambda?, l.Keeps G

/-- Two steps that the machines of the layers `n` and `k` evaluate alike. -/
structure Step.AlikeAt (P : Step → Prop) (n k : Nat) (s s' : Step) : Prop where
  rewound : s.rewound = s'.rewound
  height : s.height ≤ n
  height' : s'.height ≤ k
  everywhere : s.Everywhere P

structure Pipeline.AlikeAt (P : Step → Prop) (n k : Nat) (p p' : Pipeline) : Prop where
  rewound : p.rewound = p'.rewound
  height : p.height ≤ n
  height' : p'.height ≤ k
  everywhere : p.Everywhere P

section Alike

variable {M : Nat → Machine Step} {P : Step → Prop} {G : Graph → Prop} {n k : Nat}

theorem Step.AlikeAt.evaluated (hP : Closed M P G) {s s' t t' : Step} (h : Step.AlikeAt P n k s s')
    (ht : t.rewound = s.rewound) (ht' : t'.rewound = s'.rewound) : Step.AlikeAt P n k t t' where
  rewound := (ht.trans h.rewound).trans ht'.symm
  height := by rw [← t.height_rewound, ht, s.height_rewound]; exact h.height
  height' := by rw [← t'.height_rewound, ht', s'.height_rewound]; exact h.height'
  everywhere := hP.rewound ht.symm h.everywhere

theorem Pipeline.AlikeAt.steps {p p' : Pipeline} (h : Pipeline.AlikeAt P n k p p') :
    List.Forall₂ (Step.AlikeAt P n k) p.steps p'.steps := by
  have hsteps : p.steps.map Step.rewound = p'.steps.map Step.rewound := by
    rw [← p.steps_rewound, h.rewound, p'.steps_rewound]
  refine forall₂_imp_of_mem (forall₂_of_map_eq hsteps) fun s hs s' hs' hss => ⟨hss, ?_, ?_, ?_⟩
  · exact Pipeline.height_le_iff.1 h.height s hs
  · exact Pipeline.height_le_iff.1 h.height' s' hs'
  · exact Pipeline.everywhere_iff.1 h.everywhere s hs

theorem Pipeline.AlikeAt.evaluated (hP : Closed M P G) {p p' q q' : Pipeline}
    (h : Pipeline.AlikeAt P n k p p') (hq : q.rewound = p.rewound) (hq' : q'.rewound = p'.rewound) :
    Pipeline.AlikeAt P n k q q' where
  rewound := (hq.trans h.rewound).trans hq'.symm
  height := by rw [← q.height_rewound, hq, p.height_rewound]; exact h.height
  height' := by rw [← q'.height_rewound, hq', p'.height_rewound]; exact h.height'
  everywhere := by
    apply Pipeline.everywhere_iff.2
    intro t ht
    have hsteps : t.rewound ∈ p.steps.map Step.rewound := by
      rw [← p.steps_rewound, ← hq, q.steps_rewound]
      exact List.mem_map_of_mem ht
    obtain ⟨s, hs, hst⟩ := List.mem_map.1 hsteps
    exact hP.rewound hst (Pipeline.everywhere_iff.1 h.everywhere s hs)

/-- Children that are equal when rewound run alike if their steps are evaluated alike. -/
theorem Layered.childrenAgree (hM : Layered M) (hP : Closed M P G)
    (h : Machine.Agree (M n) (M k) Eq (Step.AlikeAt P n k) G) :
    ChildrenAgree (M n) (M k) Eq (Pipeline.AlikeAt P n k) G where
  first {p p'} hp v g hg := by
    obtain ⟨hresult, -, hgraph, hkept⟩ := firstResult_agree h hp.steps v hg
    exact ⟨hresult, hp.evaluated hP (p.first_rewound (hM.keeps n) v g)
      (p'.first_rewound (hM.keeps k) v g), hgraph, hkept⟩
  all {p p'} hp v g hg := by
    obtain ⟨hresult, -, hgraph, hkept⟩ := allResults_agree h hp.steps v hg
    exact ⟨hresult, hp.evaluated hP (p.all_rewound (hM.keeps n) v g)
      (p'.all_rewound (hM.keeps k) v g), hgraph, hkept⟩

/-- Where the cursors of a step stand and which layer evaluates it makes no difference. -/
theorem Layered.agree (hM : Layered M) (hP : Closed M P G) (n k : Nat) :
    Machine.Agree (M n) (M k) Eq (Step.AlikeAt P n k) G := by
  induction n generalizing k with
  | zero =>
    have hnone {s s' : Step} (h : Step.AlikeAt P 0 k s s') : False :=
      s.height_pos.not_ge h.height
    exact ⟨fun h => (hnone h).elim, fun h => (hnone h).elim, fun h => (hnone h).elim⟩
  | succ n ih =>
    cases k with
    | zero =>
      have hnone {s s' : Step} (h : Step.AlikeAt P (n + 1) 0 s s') : False :=
        s'.height_pos.not_ge h.height'
      exact ⟨fun h => (hnone h).elim, fun h => (hnone h).elim, fun h => (hnone h).elim⟩
    | succ k =>
      have hchildren := hM.childrenAgree hP (ih k)
      have hrelated {s s' : Step} (h : Step.AlikeAt P (n + 1) (k + 1) s s')
          (hs : s.isBranching) : Step.Related (Pipeline.AlikeAt P n k) s s' :=
        (Step.related_of_rewound h.rewound hs).imp fun c hc c' hc' hcc =>
          ⟨hcc, Step.height_le_succ_iff.1 h.height c hc, Step.height_le_succ_iff.1 h.height' c' hc',
            h.everywhere.2 c hc⟩
      have hkeeps {s s' : Step} (h : Step.AlikeAt P (n + 1) (k + 1) s s') (v : Value) (g : Graph) :=
        h.evaluated hP ((hM.keeps (n + 1)).expand s v g) ((hM.keeps (k + 1)).expand s' v g)
      have hbranching {s s' : Step} (h : Step.AlikeAt P (n + 1) (k + 1) s s') :
          s'.isBranching = s.isBranching := by
        rw [← s'.isBranching_rewound, ← h.rewound, s.isBranching_rewound]
      constructor
      · intro s s' h
        rw [hM.kind, hM.kind, ← s.kind_rewound, h.rewound, s'.kind_rewound]
      · intro s s' h v g hg
        cases hs : s.isBranching with
        | true =>
          obtain ⟨hresult, -, hgraph, hkept⟩ :=
            Step.expandWith_agree hchildren (fun _ _ => rfl) (hrelated h hs) (hP.lambda h.everywhere.1) v hg
          rw [← hM.expand_branching n hs, ← hM.expand_branching k ((hbranching h).trans hs)]
            at hresult hgraph
          rw [← hM.expand_branching n hs] at hkept
          exact ⟨hresult, hkeeps h v g, hgraph, hkept⟩
        | false =>
          obtain rfl : s = s' := by
            rw [← Step.rewound_leaf hs, h.rewound, Step.rewound_leaf ((hbranching h).trans hs)]
          have hlayer := hM.expand_leaf n k hs v g
          exact ⟨hlayer ▸ .refl _, hkeeps h v g, hlayer ▸ rfl, hP.graph n hs h.everywhere.1 v hg⟩
      · intro s s' h hkind l g hg
        have hkeeps := h.evaluated hP ((hM.keeps (n + 1)).release s l g)
          ((hM.keeps (k + 1)).release s' l g)
        rw [hM.kind] at hkind
        have hbarrier := Step.isBarrier_of_gathering hkind
        cases hs : s.isBranching with
        | true =>
          obtain ⟨hresult, -, hgraph, hkept⟩ :=
            Step.releaseWith_agree hchildren (fun _ _ => rfl) (hrelated h hs) l hg hbarrier
          rw [← hM.release_branching n hs, ← hM.release_branching k ((hbranching h).trans hs)]
            at hresult hgraph
          rw [← hM.release_branching n hs] at hkept
          exact ⟨hresult, hkeeps, hgraph, hkept⟩
        | false =>
          obtain rfl : s = s' := by
            rw [← Step.rewound_leaf hs, h.rewound, Step.rewound_leaf ((hbranching h).trans hs)]
          obtain rfl : s = .count := Step.eq_count_of_isBarrier hs hbarrier
          rw [hM.release_count] at hkeeps ⊢
          rw [hM.release_count] at hkeeps ⊢
          exact ⟨.ok _, hkeeps, rfl, hg⟩

end Alike

/-! ## Acts -/

def Step.actOn (M : Nat → Machine Step) (g : Graph) (s : Step) : Act where
  kind := s.kind
  expand v := ((M s.height).expand s v g).result
  release l := ((M s.height).release s l g).result

/-- On the graph `g` the step writes nothing and acts as `x` does. -/
def Step.ActsAs (M : Nat → Machine Step) (g : Graph) (s : Step) (x : Act) : Prop :=
  s.ReadOnly ∧ Act.Agree Eq (s.actOn M g) x

def Pipeline.deliver (M : Nat → Machine Step) (g : Graph) (p : Pipeline) (l : Results) : Results :=
  Act.applyAll (p.steps.map (·.actOn M g)) l

section Acts

variable {M : Nat → Machine Step} (hM : Layered M) {g : Graph} {n : Nat}

include hM

theorem Layered.readOnly_closed : Closed M Step.KeepsGraph (· = g) where
  rewound {s s'} h hs := by
    change s'.ReadOnly
    rw [← Step.readOnly_rewound_iff, ← h, Step.readOnly_rewound_iff]
    exact hs
  graph n s hs hm v g' hg := by rw [hM.graph_leaf n hs hm.isMutating, hg]
  lambda hs l hl := (hs.lambda l hl).keeps _

theorem Step.actOn_agree {s s' : Step} (h : s.rewound = s'.rewound) (hs : s.ReadOnly) :
    Act.Agree Eq (s.actOn M g) (s'.actOn M g) := by
  have hagree := hM.agree hM.readOnly_closed (G := (· = g)) s.height s'.height
  have halike : Step.AlikeAt Step.KeepsGraph s.height s'.height s s' :=
    ⟨h, le_rfl, le_rfl, hs⟩
  have hkind := hagree.kind halike
  rw [hM.kind, hM.kind] at hkind
  refine ⟨hkind, fun v => (hagree.expand halike v rfl).result, fun hk l => ?_⟩
  exact (hagree.release halike ((hM.kind _ s).trans hk) l rfl).result

/-- A machine of steps runs as the machine of their acts. -/
theorem Layered.acts : Machine.Agree (M n) Act.machine Eq
    (fun s x => s.height ≤ n ∧ s.ActsAs M g x) (· = g) := by
  have hagree (s : Step) := hM.agree hM.readOnly_closed (G := (· = g)) n s.height
  have halike {s : Step} (hn : s.height ≤ n) (hs : s.ReadOnly) :
      Step.AlikeAt Step.KeepsGraph n s.height s s := ⟨rfl, hn, le_rfl, hs⟩
  have hstate {s t : Step} {x : Act} (ht : t.rewound = s.rewound)
      (h : s.height ≤ n ∧ s.ActsAs M g x) : t.height ≤ n ∧ t.ActsAs M g x := by
    rcases h with ⟨hn, hs, hx⟩
    have htro : t.ReadOnly := by
      rw [← Step.readOnly_rewound_iff, ht, Step.readOnly_rewound_iff]
      exact hs
    refine ⟨?_, htro, (Step.actOn_agree hM ht htro).trans hx⟩
    rw [← t.height_rewound, ht, s.height_rewound]
    exact hn
  constructor
  · rintro s x ⟨-, -, hx⟩
    exact (hM.kind n s).trans hx.kind
  · rintro s x ⟨hn, hs, hx⟩ v _ rfl
    obtain ⟨hresult, -, -, hkept⟩ := (hagree s).expand (halike hn hs) v rfl
    exact ⟨hresult.trans (hx.expand v), hstate ((hM.keeps n).expand s v _) ⟨hn, hs, hx⟩, hkept,
      hkept⟩
  · rintro s x ⟨hn, hs, hx⟩ hk l _ rfl
    obtain ⟨hresult, -, -, hkept⟩ := (hagree s).release (halike hn hs) hk l rfl
    rw [hM.kind] at hk
    exact ⟨hresult.trans (hx.release hk l), hstate ((hM.keeps n).release s l _) ⟨hn, hs, hx⟩, hkept,
      hkept⟩

omit hM in
theorem Pipeline.actsAs_acts (p : Pipeline) (hp : p.ReadOnly) :
    List.Forall₂ (Step.ActsAs M g) p.steps (p.steps.map (·.actOn M g)) := by
  rw [List.forall₂_map_right_iff, List.forall₂_same]
  exact fun s hs => ⟨Pipeline.everywhere_iff.1 hp s hs, .refl _⟩

omit hM in
theorem Pipeline.acts_related {p : Pipeline} (hp : p.ReadOnly) (hn : p.height ≤ n) :
    List.Forall₂ (fun s x => s.height ≤ n ∧ s.ActsAs M g x) p.steps
      (p.steps.map (·.actOn M g)) :=
  (List.forall₂_and_left _ _).2 ⟨Pipeline.height_le_iff.1 hn, p.actsAs_acts hp⟩

/-- The first result of a child is the first that its steps deliver. -/
theorem Pipeline.first_eq {p : Pipeline} (hp : p.ReadOnly) (hn : p.height ≤ n) (v : Value) :
    (p.first (M n) v g).result = (p.deliver M g [.ok v]).first ∧ (p.first (M n) v g).graph = g := by
  obtain ⟨hresult, -, -, hkept⟩ := firstResult_agree hM.acts (p.acts_related hp hn) v rfl
  exact ⟨(eqUpTo_iff_eq.1 hresult).trans (firstResult_acts _ v g), hkept⟩

/-- All results of a child are those that its steps deliver, up to the first error. -/
theorem Pipeline.all_eq {p : Pipeline} (hp : p.ReadOnly) (hn : p.height ≤ n) (v : Value) :
    (p.all (M n) v g).result = (p.deliver M g [.ok v]).collect ∧ (p.all (M n) v g).graph = g := by
  obtain ⟨hresult, -, -, hkept⟩ := allResults_agree hM.acts (p.acts_related hp hn) v rfl
  exact ⟨(eqUpTo_iff_eq.1 hresult).trans (allResults_acts _ v g), hkept⟩

theorem Pipeline.deliver_eq_of_rewound {p p' : Pipeline} (h : p.rewound = p'.rewound)
    (hp : p.ReadOnly) (l : Results) : p.deliver M g l = p'.deliver M g l := by
  have hsteps : p.steps.map Step.rewound = p'.steps.map Step.rewound := by
    rw [← p.steps_rewound, h, p'.steps_rewound]
  refine Results.agree_eq_iff.1 (Act.applyAll_agree ?_ (Results.agree_eq_iff.2 rfl))
  rw [List.forall₂_map_left_iff, List.forall₂_map_right_iff]
  apply forall₂_imp_of_mem (forall₂_of_map_eq hsteps)
  intro s hs s' _ hss
  exact Step.actOn_agree hM hss (Pipeline.everywhere_iff.1 hp s hs)

end Acts

/-! ## Graphs left alone -/

namespace Step

variable {s : Step} (hs : s.ReadOnly) (g : Graph)

include hs

theorem ReadOnly.graph_expand (v : Value) : (s.expand v g).graph = g :=
  ((machine_layered.agree machine_layered.readOnly_closed s.height s.height).expand
    ⟨rfl, le_rfl, le_rfl, hs⟩ v rfl).kept

theorem ReadOnly.graph_release (hb : s.isBarrier = true) (l : List Value) :
    (s.release l g).graph = g :=
  ((machine_layered.agree machine_layered.readOnly_closed s.height s.height).release
    ⟨rfl, le_rfl, le_rfl, hs⟩ ((machine_layered.kind _ s).trans (kind_of_isBarrier hb)) l rfl).kept

end Step

end GraphTraversal
