import GraphTraversal.Proofs.Step.Acts

/-! # Congruence

What a step does depends on its children only through what they deliver.  So a child may be put in
place of another, or be evaluated by other machines, as long as the two deliver results that agree.
-/

namespace GraphTraversal

/-- Read-only pipelines that deliver results which agree, whatever the input. -/
structure Pipeline.DeliversAlike (E : Error → Error → Prop) (M M' : Nat → Machine Step) (g : Graph)
    (p p' : Pipeline) : Prop where
  readOnly : p.ReadOnly
  readOnly' : p'.ReadOnly
  deliver : ∀ v, Results.Agree E (p.deliver M g [.ok v]) (p'.deliver M' g [.ok v])

theorem Pipeline.readOnly_of_rewound {p q : Pipeline} (h : q.rewound = p.rewound)
    (hp : p.ReadOnly) : q.ReadOnly := by
  rw [← Pipeline.readOnly_rewound_iff, h, Pipeline.readOnly_rewound_iff]
  exact hp

section Congruence

variable {E : Error → Error → Prop} {M M' : Nat → Machine Step} (hM : Layered M) (hM' : Layered M')
  {g : Graph}

include hM hM'

theorem Pipeline.DeliversAlike.evaluated {p p' q q' : Pipeline} (h : Pipeline.DeliversAlike E M M' g p p')
    (hq : q.rewound = p.rewound) (hq' : q'.rewound = p'.rewound) :
    Pipeline.DeliversAlike E M M' g q q' where
  readOnly := Pipeline.readOnly_of_rewound hq h.readOnly
  readOnly' := Pipeline.readOnly_of_rewound hq' h.readOnly'
  deliver v := by
    rw [Pipeline.deliver_eq_of_rewound hM hq (Pipeline.readOnly_of_rewound hq h.readOnly),
      Pipeline.deliver_eq_of_rewound hM' hq' (Pipeline.readOnly_of_rewound hq' h.readOnly')]
    exact h.deliver v

/-- Children that agree, each low enough for its machine. -/
theorem Layered.childrenAgree_of_deliver (n k : Nat) : ChildrenAgree (M n) (M' k) E
    (fun p p' => Pipeline.DeliversAlike E M M' g p p' ∧ p.height ≤ n ∧ p'.height ≤ k) (· = g) := by
  have hstate {p p' q q' : Pipeline}
      (h : Pipeline.DeliversAlike E M M' g p p' ∧ p.height ≤ n ∧ p'.height ≤ k)
      (hq : q.rewound = p.rewound) (hq' : q'.rewound = p'.rewound) :
      Pipeline.DeliversAlike E M M' g q q' ∧ q.height ≤ n ∧ q'.height ≤ k := by
    rw [← q.height_rewound, hq, p.height_rewound, ← q'.height_rewound, hq', p'.height_rewound]
    exact ⟨h.1.evaluated hM hM' hq hq', h.2⟩
  constructor
  · rintro p p' h v _ rfl
    obtain ⟨hresult, hgraph⟩ := p.first_eq hM h.1.readOnly h.2.1 v
    obtain ⟨hresult', hgraph'⟩ := p'.first_eq hM' h.1.readOnly' h.2.2 v
    refine ⟨?_, hstate h (p.first_rewound (hM.keeps n) v _) (p'.first_rewound (hM'.keeps k) v _),
      hgraph.trans hgraph'.symm, hgraph⟩
    rw [hresult, hresult']
    exact Results.first_agree (h.1.deliver v)
  · rintro p p' h v _ rfl
    obtain ⟨hresult, hgraph⟩ := p.all_eq hM h.1.readOnly h.2.1 v
    obtain ⟨hresult', hgraph'⟩ := p'.all_eq hM' h.1.readOnly' h.2.2 v
    refine ⟨?_, hstate h (p.all_rewound (hM.keeps n) v _) (p'.all_rewound (hM'.keeps k) v _),
      hgraph.trans hgraph'.symm, hgraph⟩
    rw [hresult, hresult']
    exact Results.collect_agree (h.1.deliver v)

/-- Steps alike but for their children act alike if the children agree. -/
theorem Step.actOn_agree_of_related [Std.Refl E] {s s' : Step}
    (h : Step.Related (Pipeline.DeliversAlike E M M' g) s s')
    (hlambda : ∀ l ∈ s.lambda?, l.ReadOnly) :
    Act.Agree E (s.actOn M g) (s'.actOn M' g) := by
  obtain ⟨n, hn⟩ := s.exists_height_eq_succ
  obtain ⟨k, hk⟩ := s'.exists_height_eq_succ
  have hchildren := hM.childrenAgree_of_deliver hM' (E := E) (g := g) n k
  have hrelated : Step.Related
      (fun p p' => Pipeline.DeliversAlike E M M' g p p' ∧ p.height ≤ n ∧ p'.height ≤ k) s s' :=
    h.imp fun c hc c' hc' hcc => ⟨hcc, Step.height_le_succ_iff.1 hn.le c hc,
      Step.height_le_succ_iff.1 hk.le c' hc'⟩
  have hs : s.isBranching = true ∧ s'.isBranching = true ∧ s.kind = s'.kind := by
    cases h <;> exact ⟨rfl, rfl, rfl⟩
  rcases hs with ⟨hs, hs', hkind⟩
  have hself (e : Error) (_ : e.Justified) : E e e := Std.Refl.refl e
  refine ⟨hkind, fun v => ?_, fun hgather l => ?_⟩
  · simp only [Step.actOn, hn, hk, hM.expand_branching n hs, hM'.expand_branching k hs']
    exact (Step.expandWith_agree hchildren hself hrelated (fun l hl => (hlambda l hl).keeps _) v rfl).result
  · simp only [Step.actOn, hn, hk, hM.release_branching n hs, hM'.release_branching k hs']
    exact (Step.releaseWith_agree hchildren hself hrelated l rfl
      (Step.isBarrier_of_gathering hgather)).result

end Congruence

end GraphTraversal
