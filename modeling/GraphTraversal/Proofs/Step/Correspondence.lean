import GraphTraversal.Proofs.Data.Related
import GraphTraversal.Proofs.Data.Ring
import GraphTraversal.Proofs.Run.Agreement
import GraphTraversal.Proofs.Step.Panics

/-! # Steps whose children correspond

Two steps alike but for their children evaluate alike, if children that correspond run alike on their
two machines.  The correspondence of children is a parameter: rewound children, children whose results
agree, or a child and its rewritten form.
-/

namespace GraphTraversal

/-! ## Correspondence -/

section Corresponding

variable (R : Pipeline → Pipeline → Prop)

def Decision.OptionRelated (o o' : Value × Pipeline) : Prop := o.1 = o'.1 ∧ R o.2 o'.2

inductive Decision.Related : Decision → Decision → Prop where
  | lambda (test : Lambda) {yes yes' no no' : Pipeline} (hyes : R yes yes') (hno : R no no') :
    Related (.lambda test yes no) (.lambda test yes' no')
  | predicate {test test' yes yes' no no' : Pipeline} (htest : R test test') (hyes : R yes yes')
    (hno : R no no') : Related (.predicate test yes no) (.predicate test' yes' no')
  | selector {pick pick' : Pipeline} {options options' : List (Value × Pipeline)}
    {fallback fallback' : Option Pipeline} (hpick : R pick pick')
    (hoptions : List.Forall₂ (OptionRelated R) options options')
    (hfallback : Option.Rel R fallback fallback') :
    Related (.selector pick options fallback) (.selector pick' options' fallback')

inductive Comparator.Related : Comparator → Comparator → Prop where
  | «by» {p p' : Pipeline} (h : R p p') : Related (.by p) (.by p')
  | self (order : SortOrder) : Related (.self order) (.self order)

/-- Rings that stand at one place and hold corresponding pipelines. -/
structure Ring.Related (r r' : Ring Pipeline) : Prop where
  items : List.Forall₂ R r.items r'.items
  cursor : r.cursor = r'.cursor

/-- Steps with children, alike but for the children, which correspond, and for cursors and phases. -/
inductive Step.Related : Step → Step → Prop where
  | filter {p p' : Pipeline} (h : R p p') (injectedBy : Option String) :
    Related (.filter p injectedBy) (.filter p' injectedBy)
  | and {l l' : List Pipeline} (h : List.Forall₂ R l l') : Related (.and l) (.and l')
  | repeat {p p' : Pipeline} (h : R p p') (times : Option Nat) :
    Related (.repeat p times) (.repeat p' times)
  | choose {d d' : Decision} (h : Decision.Related R d d') (phase phase' : Phase) :
    Related (.choose d phase) (.choose d' phase')
  | groupCount {r r' : Ring Pipeline} (h : List.Forall₂ R r.items r'.items) :
    Related (.groupCount r) (.groupCount r')
  | project (names : List String) {r r' : Ring Pipeline} (h : List.Forall₂ R r.items r'.items) :
    Related (.project names r) (.project names r')
  | order {l l' : List Comparator} (h : List.Forall₂ (Comparator.Related R) l l') :
    Related (.order l) (.order l')

end Corresponding

section Imp

variable {R R' : Pipeline → Pipeline → Prop}

theorem Decision.Related.imp {d d' : Decision} (h : Decision.Related R d d')
    (hR : ∀ c ∈ d.children, ∀ c' ∈ d'.children, R c c' → R' c c') : Decision.Related R' d d' := by
  cases h with
  | lambda test hyes hno =>
    exact .lambda test (hR _ (by simp [children]) _ (by simp [children]) hyes)
      (hR _ (by simp [children]) _ (by simp [children]) hno)
  | predicate htest hyes hno =>
    exact .predicate (hR _ (by simp [children]) _ (by simp [children]) htest)
      (hR _ (by simp [children]) _ (by simp [children]) hyes)
      (hR _ (by simp [children]) _ (by simp [children]) hno)
  | selector hpick hoptions hfallback =>
    refine .selector (hR _ (by simp [children]) _ (by simp [children]) hpick)
      (forall₂_imp_of_mem hoptions fun o ho o' ho' hoo => ⟨hoo.1, ?_⟩) ?_
    · have hmem := List.mem_map_of_mem (f := (·.2)) ho
      have hmem' := List.mem_map_of_mem (f := (·.2)) ho'
      exact hR _ (by simp [children, hmem]) _ (by simp [children, hmem']) hoo.2
    · cases hfallback with
      | none => exact .none
      | some hp => exact .some (hR _ (by simp [children]) _ (by simp [children]) hp)

theorem Step.Related.imp {s s' : Step} (h : Step.Related R s s')
    (hR : ∀ c ∈ s.children, ∀ c' ∈ s'.children, R c c' → R' c c') : Step.Related R' s s' := by
  cases h with
  | filter hp injectedBy =>
    exact .filter (hR _ (by simp [children]) _ (by simp [children]) hp) injectedBy
  | and hl => exact .and (forall₂_imp_of_mem hl hR)
  | «repeat» hp times => exact .repeat (hR _ (by simp [children]) _ (by simp [children]) hp) times
  | choose hd phase phase' => exact .choose (hd.imp hR) phase phase'
  | groupCount hr => exact .groupCount (forall₂_imp_of_mem hr hR)
  | project names hr => exact .project names (forall₂_imp_of_mem hr hR)
  | order hl =>
    refine .order (forall₂_imp_of_mem hl fun c hc c' hc' hcc => ?_)
    cases hcc with
    | self order => exact .self order
    | «by» hp =>
      exact .by (hR _ (List.mem_filterMap.2 ⟨_, hc, rfl⟩) _ (List.mem_filterMap.2 ⟨_, hc', rfl⟩) hp)

theorem Decision.Related.children {d d' : Decision} (h : Decision.Related R d d') :
    List.Forall₂ R d.children d'.children := by
  cases h with
  | lambda test hyes hno => exact .cons hyes (.cons hno .nil)
  | predicate htest hyes hno => exact .cons htest (.cons hyes (.cons hno .nil))
  | selector hpick hoptions hfallback =>
    have hbranches := List.forall₂_map_left_iff.2 (List.forall₂_map_right_iff.2
      (hoptions.imp fun _ _ ho => ho.2))
    refine .cons hpick (List.rel_append hbranches ?_)
    cases hfallback with
    | none => exact .nil
    | some hp => exact .cons hp .nil

theorem Step.Related.children {s s' : Step} (h : Step.Related R s s') :
    List.Forall₂ R s.children s'.children := by
  cases h with
  | filter hp injectedBy => exact .cons hp .nil
  | and hl => exact hl
  | «repeat» hp times => exact .cons hp .nil
  | choose hd phase phase' => exact hd.children
  | groupCount hr => exact hr
  | project names hr => exact hr
  | order hl =>
    refine List.rel_filterMap (fun _ _ hc => ?_) hl
    cases hc with
    | «by» hp => exact .some hp
    | self order => exact .none

end Imp

/-- The lambda leads from graphs of the class to graphs of the class. -/
def Lambda.Keeps (l : Lambda) (G : Graph → Prop) : Prop := ∀ v {g}, G g → G (l.leaves g v)

/-- Corresponding children run alike, and what comes back corresponds again. -/
structure ChildrenAgree (m m' : Machine Step) (E : Error → Error → Prop)
    (R : Pipeline → Pipeline → Prop) (G : Graph → Prop) : Prop where
  first : ∀ {p p'}, R p p' → ∀ v {g}, G g →
    Outcome.Agree E R G (p.first m v g) (p'.first m' v g)
  all : ∀ {p p'}, R p p' → ∀ v {g}, G g →
    Outcome.Agree E R G (p.all m v g) (p'.all m' v g)

section Evaluating

variable {m m' : Machine Step} {E : Error → Error → Prop} {R : Pipeline → Pipeline → Prop}
  {G : Graph → Prop} (h : ChildrenAgree m m' E R G) (hE : ∀ e : Error, e.Justified → E e e)

include h

/-! ## Children -/

namespace Pipeline

theorem allForEach_agree {p p' : Pipeline} (hp : R p p') (l : List Value) {g : Graph} (hg : G g) :
    Outcome.Agree E R G (p.allForEach m l g) (p'.allForEach m' l g) := by
  induction l generalizing p p' g with
  | nil => exact ⟨.ok [], hp, rfl, hg⟩
  | cons v l ih =>
    rcases (h.all hp v hg).cases with
      ⟨found, q, q', g₁, ho, ho', hq, hg₁⟩ | ⟨e, e', q, q', g₁, ho, ho', he, hq, hg₁⟩
    · obtain ⟨hresult, hstate, hgraph, hkept⟩ := ih hq hg₁
      simp only [allForEach, ho, ho']
      exact ⟨hresult.map _, hstate, hgraph, hkept⟩
    · simp only [allForEach, ho, ho']
      exact ⟨.error he, hq, rfl, hg₁⟩

theorem rounds_agree (n : Nat) {p p' : Pipeline} (hp : R p p') (l : List Value) {g : Graph}
    (hg : G g) : Outcome.Agree E R G (rounds m n p l g) (rounds m' n p' l g) := by
  induction n generalizing p p' l g with
  | zero => exact ⟨.ok l, hp, rfl, hg⟩
  | succ n ih =>
    simp only [rounds]
    split
    · exact ⟨.ok l, hp, rfl, hg⟩
    · rcases (allForEach_agree h hp l hg).cases with
        ⟨found, q, q', g₁, ho, ho', hq, hg₁⟩ | ⟨e, e', q, q', g₁, ho, ho', he, hq, hg₁⟩
      · simp only [ho, ho']
        exact ih hq found hg₁
      · simp only [ho, ho']
        exact ⟨.error he, hq, rfl, hg₁⟩

theorem allHold_agree {l l' : List Pipeline} (hl : List.Forall₂ R l l') (v : Value) {g : Graph}
    (hg : G g) : Outcome.Agree E (List.Forall₂ R) G (allHold m l v g) (allHold m' l' v g) := by
  induction hl generalizing g with
  | nil => exact ⟨.ok true, .nil, rfl, hg⟩
  | cons hp hl ih =>
    rcases (h.first hp v hg).cases with
      ⟨found, q, q', g₁, ho, ho', hq, hg₁⟩ | ⟨e, e', q, q', g₁, ho, ho', he, hq, hg₁⟩
    · cases found with
      | none =>
        simp only [allHold, ho, ho']
        exact ⟨.ok false, .cons hq hl, rfl, hg₁⟩
      | some w =>
        obtain ⟨hresult, hstate, hgraph, hkept⟩ := ih hg₁
        simp only [allHold, ho, ho']
        exact ⟨hresult, .cons hq hstate, hgraph, hkept⟩
    · simp only [allHold, ho, ho']
      exact ⟨.error he, .cons hq hl, rfl, hg₁⟩

end Pipeline

/-! ## Choices -/

namespace Decision

omit h in
theorem routeOf_eq_of_related {d d' : Decision} (hd : Decision.Related R d d') (token : Value) :
    d.routeOf token = d'.routeOf token := by
  have htokens : d.tokens = d'.tokens := by
    cases hd with
    | selector _ hoptions _ =>
      have htokens := hoptions.imp fun _ _ h => h.1
      rw [tokens, tokens, ← List.forall₂_eq_eq_eq, List.forall₂_map_left_iff,
        List.forall₂_map_right_iff]
      exact htokens
    | _ => rfl
  have hfallback : d.hasFallback = d'.hasFallback := by
    cases hd with
    | selector _ _ hfallback => cases hfallback <;> rfl
    | _ => rfl
  rw [routeOf, routeOf, htokens, hfallback]

include hE in
theorem token_agree {d d' : Decision} (hd : Decision.Related R d d')
    (hlambda : ∀ l ∈ d.lambda?, l.Keeps G) (v : Value) {g : Graph} (hg : G g) :
    Outcome.Agree E (Decision.Related R) G (d.token m v g) (d'.token m' v g) := by
  cases hd with
  | lambda test hyes hno =>
    exact ⟨.ok _, .lambda test hyes hno, rfl, hlambda test rfl v hg⟩
  | predicate htest hyes hno =>
    obtain ⟨hresult, hstate, hgraph, hkept⟩ := h.first htest v hg
    exact ⟨hresult.map _, .predicate hstate hyes hno, hgraph, hkept⟩
  | selector hpick hoptions hfallback =>
    rcases (h.all hpick v hg).cases with
      ⟨found, q, q', g₁, ho, ho', hq, hg₁⟩ | ⟨e, e', q, q', g₁, ho, ho', he, hq, hg₁⟩
    · simp only [token, ho, ho']
      refine ⟨.self fun e he => hE e ?_, .selector hq hoptions hfallback, rfl, hg₁⟩
      -- one token is no error
      rcases found with - | ⟨token, - | ⟨other, found⟩⟩ <;> cases he <;> trivial
    · simp only [token, ho, ho']
      exact ⟨.error he, .selector hq hoptions hfallback, rfl, hg₁⟩

theorem runOption_agree {l l' : List (Value × Pipeline)}
    (hl : List.Forall₂ (OptionRelated R) l l') (i : Nat) (v : Value) {g : Graph} (hg : G g) :
    Outcome.Agree E (List.Forall₂ (OptionRelated R)) G (runOption m v g l i)
      (runOption m' v g l' i) := by
  induction hl generalizing i with
  | nil => exact ⟨.ok [], .nil, rfl, hg⟩
  | @cons o o' l l' ho hl ih =>
    cases i with
    | zero =>
      obtain ⟨hresult, hstate, hgraph, hkept⟩ := h.all ho.2 v hg
      exact ⟨hresult, .cons ⟨ho.1, hstate⟩ hl, hgraph, hkept⟩
    | succ i =>
      obtain ⟨hresult, hstate, hgraph, hkept⟩ := ih i
      exact ⟨hresult, .cons ho hstate, hgraph, hkept⟩

theorem follow_agree {d d' : Decision} (hd : Decision.Related R d d') (route : Route) (v : Value)
    {g : Graph} (hg : G g) :
    Outcome.Agree E (Decision.Related R) G (d.follow m route v g) (d'.follow m' route v g) := by
  cases hd with
  | lambda test hyes hno =>
    match route with
    | .option 0 =>
      obtain ⟨hresult, hstate, hgraph, hkept⟩ := h.all hyes v hg
      exact ⟨hresult, .lambda test hstate hno, hgraph, hkept⟩
    | .option 1 =>
      obtain ⟨hresult, hstate, hgraph, hkept⟩ := h.all hno v hg
      exact ⟨hresult, .lambda test hyes hstate, hgraph, hkept⟩
    | .option (_ + 2) | .fallback | .nowhere => exact ⟨.ok [], .lambda test hyes hno, rfl, hg⟩
  | predicate htest hyes hno =>
    match route with
    | .option 0 =>
      obtain ⟨hresult, hstate, hgraph, hkept⟩ := h.all hyes v hg
      exact ⟨hresult, .predicate htest hstate hno, hgraph, hkept⟩
    | .option 1 =>
      obtain ⟨hresult, hstate, hgraph, hkept⟩ := h.all hno v hg
      exact ⟨hresult, .predicate htest hyes hstate, hgraph, hkept⟩
    | .option (_ + 2) | .fallback | .nowhere =>
      exact ⟨.ok [], .predicate htest hyes hno, rfl, hg⟩
  | selector hpick hoptions hfallback =>
    match route with
    | .option i =>
      obtain ⟨hresult, hstate, hgraph, hkept⟩ := runOption_agree h hoptions i v hg
      simp only [follow]
      exact ⟨hresult, .selector hpick hstate hfallback, hgraph, hkept⟩
    | .fallback =>
      cases hfallback with
      | some hp =>
        obtain ⟨hresult, hstate, hgraph, hkept⟩ := h.all hp v hg
        exact ⟨hresult, .selector hpick hoptions (.some hstate), hgraph, hkept⟩
      | none => exact ⟨.ok [], .selector hpick hoptions .none, rfl, hg⟩
    | .nowhere => exact ⟨.ok [], .selector hpick hoptions hfallback, rfl, hg⟩

include hE in
theorem evaluate_agree {d d' : Decision} (hd : Decision.Related R d d')
    (hlambda : ∀ l ∈ d.lambda?, l.Keeps G) (v : Value) {g : Graph} (hg : G g) :
    Outcome.Agree E (fun x x' => Decision.Related R x.1 x'.1) G (d.evaluate m v g)
      (d'.evaluate m' v g) := by
  obtain ⟨token, d₁, d₁', g₁, ho, ho', hd₁, hg₁⟩ |
    ⟨e, e', d₁, d₁', g₁, ho, ho', he, hd₁, hg₁⟩ := (token_agree h hE hd hlambda v hg).cases
  · rcases (follow_agree h hd₁ (d₁.routeOf token) v hg₁).cases with
      ⟨l, d₂, d₂', g₂, hf, hf', hd₂, hg₂⟩ | ⟨e, e', d₂, d₂', g₂, hf, hf', he, hd₂, hg₂⟩
    · simp only [evaluate, ho, ho', ← routeOf_eq_of_related hd₁, hf, hf']
      exact ⟨.ok l, hd₂, rfl, hg₂⟩
    · simp only [evaluate, ho, ho', ← routeOf_eq_of_related hd₁, hf, hf']
      exact ⟨.error he, hd₂, rfl, hg₂⟩
  · simp only [evaluate, ho, ho']
    exact ⟨.error he, hd₁, rfl, hg₁⟩

end Decision

/-! ## Modulated steps -/

theorem Ring.nextValue_agree {r r' : Ring Pipeline} (hr : Ring.Related R r r') (v : Value)
    {g : Graph} (hg : G g) :
    Outcome.Agree E (Ring.Related R) G (r.nextValue m v g) (r'.nextValue m' v g) := by
  rcases r with ⟨items, cursor⟩
  rcases r' with ⟨items', _⟩
  rcases hr with ⟨hitems, rfl⟩
  cases hitems with
  | nil => exact ⟨.ok _, ⟨.nil, rfl⟩, rfl, hg⟩
  | @cons p p' items items' hp hitems =>
    have hall : List.Forall₂ R (p :: items) (p' :: items') := .cons hp hitems
    have hturn : turn ⟨p' :: items', cursor⟩ = turn ⟨p :: items, cursor⟩ := by
      simp only [turn, hall.length_eq]
    simp only [nextValue]
    rw [next?_eq (List.cons_ne_nil p items), next?_eq (List.cons_ne_nil p' items'), hturn]
    have hcurrent := rel_getElem? hall (turn ⟨p :: items, cursor⟩)
    dsimp only
    generalize (p :: items)[turn ⟨p :: items, cursor⟩]? = x at hcurrent
    generalize (p' :: items')[turn ⟨p :: items, cursor⟩]? = x' at hcurrent
    cases hcurrent with
    | none => exact ⟨.ok _, ⟨hall, rfl⟩, rfl, hg⟩
    | some hq =>
      obtain ⟨hresult, hstate, hgraph, hkept⟩ := h.first hq v hg
      exact ⟨hresult, ⟨rel_set hall _ hstate, rfl⟩, hgraph, hkept⟩

theorem groupCounts_agree {r r' : Ring Pipeline} (hr : List.Forall₂ R r.items r'.items)
    (l : List Value) (counts : List (Value × Nat)) {g : Graph} (hg : G g) :
    Outcome.Agree E (fun r r' => List.Forall₂ R r.items r'.items) G (groupCounts m r l counts g)
      (groupCounts m' r' l counts g) := by
  induction l generalizing r r' counts g with
  | nil => exact ⟨.ok counts, hr, rfl, hg⟩
  | cons v l ih =>
    have hreset : Ring.Related R r.reset r'.reset := ⟨hr, rfl⟩
    rcases (Ring.nextValue_agree h hreset v hg).cases with
      ⟨found, q, q', g₁, ho, ho', hq, hg₁⟩ | ⟨e, e', q, q', g₁, ho, ho', he, hq, hg₁⟩
    · cases found with
      | none =>
        simp only [groupCounts, ho, ho']
        exact ih hq.items counts hg₁
      | some k =>
        simp only [groupCounts, ho, ho']
        exact ih hq.items _ hg₁
    · simp only [groupCounts, ho, ho']
      exact ⟨.error he, hq.items, rfl, hg₁⟩

theorem projectEntries_agree (names : List String) {r r' : Ring Pipeline}
    (hr : Ring.Related R r r') (v : Value) {g : Graph} (hg : G g) :
    Outcome.Agree E (Ring.Related R) G (projectEntries m v names r g)
      (projectEntries m' v names r' g) := by
  induction names generalizing r r' g with
  | nil => exact ⟨.ok [], hr, rfl, hg⟩
  | cons name names ih =>
    rcases (Ring.nextValue_agree h hr v hg).cases with
      ⟨found, q, q', g₁, ho, ho', hq, hg₁⟩ | ⟨e, e', q, q', g₁, ho, ho', he, hq, hg₁⟩
    · obtain ⟨hresult, hstate, hgraph, hkept⟩ := ih hq hg₁
      simp only [projectEntries, ho, ho']
      exact ⟨hresult.map _, hstate, hgraph, hkept⟩
    · simp only [projectEntries, ho, ho']
      exact ⟨.error he, hq, rfl, hg₁⟩

namespace Comparator

theorem keysOf_agree {l l' : List Comparator} (hl : List.Forall₂ (Comparator.Related R) l l')
    (v : Value) {g : Graph} (hg : G g) :
    Outcome.Agree E (List.Forall₂ (Comparator.Related R)) G (keysOf m v l g) (keysOf m' v l' g) := by
  induction hl generalizing g with
  | nil => exact ⟨.ok [], .nil, rfl, hg⟩
  | cons hc hl ih =>
    cases hc with
    | self order =>
      obtain ⟨hresult, hstate, hgraph, hkept⟩ := ih hg
      exact ⟨hresult.map _, .cons (.self order) hstate, hgraph, hkept⟩
    | «by» hp =>
      rcases (h.first hp v hg).cases with
        ⟨found, q, q', g₁, ho, ho', hq, hg₁⟩ | ⟨e, e', q, q', g₁, ho, ho', he, hq, hg₁⟩
      · obtain ⟨hresult, hstate, hgraph, hkept⟩ := ih hg₁
        simp only [keysOf, ho, ho']
        exact ⟨hresult.map _, .cons (.by hq) hstate, hgraph, hkept⟩
      · simp only [keysOf, ho, ho']
        exact ⟨.error he, .cons (.by hq) hl, rfl, hg₁⟩

theorem keyed_agree {l l' : List Comparator} (hl : List.Forall₂ (Comparator.Related R) l l')
    (inputs : List Value) {g : Graph} (hg : G g) :
    Outcome.Agree E (List.Forall₂ (Comparator.Related R)) G (keyed m l inputs g)
      (keyed m' l' inputs g) := by
  induction inputs generalizing l l' g with
  | nil => exact ⟨.ok [], hl, rfl, hg⟩
  | cons v inputs ih =>
    rcases (keysOf_agree h hl v hg).cases with
      ⟨keys, q, q', g₁, ho, ho', hq, hg₁⟩ | ⟨e, e', q, q', g₁, ho, ho', he, hq, hg₁⟩
    · obtain ⟨hresult, hstate, hgraph, hkept⟩ := ih hq hg₁
      simp only [keyed, ho, ho']
      exact ⟨hresult.map _, hstate, hgraph, hkept⟩
    · simp only [keyed, ho, ho']
      exact ⟨.error he, hq, rfl, hg₁⟩

include hE in
theorem sort_agree {l l' : List Comparator} (hl : List.Forall₂ (Comparator.Related R) l l')
    (inputs : List Value) {g : Graph} (hg : G g) :
    Outcome.Agree E (List.Forall₂ (Comparator.Related R)) G (sort m l inputs g)
      (sort m' l' inputs g) := by
  have horders : l.map (·.sortOrder) = l'.map (·.sortOrder) := by
    rw [← List.forall₂_eq_eq_eq, List.forall₂_map_left_iff, List.forall₂_map_right_iff]
    exact hl.imp fun _ _ h => by cases h <;> rfl
  have hempty : l.isEmpty = l'.isEmpty := by cases hl <;> rfl
  simp only [sort]
  rw [← horders, ← hempty]
  split
  · exact ⟨.self fun e he => hE e (arrange_justified he), hl, rfl, hg⟩
  · obtain ⟨hresult, hstate, hgraph, hkept⟩ := keyed_agree h hl inputs hg
    refine ⟨hresult.bind fun keyed hkeyed => .self fun e he => hE e ?_, hstate, hgraph, hkept⟩
    refine arrangeKeyed_justified ?_ (fun x hx => ?_) he
    · simpa [List.isEmpty_iff] using ‹¬l.isEmpty = true›
    · rw [length_of_keyed hkeyed x hx, List.length_map]

end Comparator

/-! ## Steps -/

namespace Step

include hE in
theorem expandWith_agree {s s' : Step} (hs : Step.Related R s s')
    (hlambda : ∀ l ∈ s.lambda?, l.Keeps G) (v : Value) {g : Graph} (hg : G g) :
    Outcome.Agree E (Step.Related R) G (s.expandWith m v g) (s'.expandWith m' v g) := by
  cases hs with
  | filter hp injectedBy =>
    obtain ⟨hresult, hstate, hgraph, hkept⟩ := h.first hp v hg
    exact ⟨hresult.map _, .filter hstate injectedBy, hgraph, hkept⟩
  | and hl =>
    obtain ⟨hresult, hstate, hgraph, hkept⟩ := Pipeline.allHold_agree h hl v hg
    exact ⟨hresult.map _, .and hstate, hgraph, hkept⟩
  | «repeat» hp times =>
    cases times with
    | none => exact ⟨.error (hE _ trivial), .repeat hp none, rfl, hg⟩
    | some n =>
      obtain ⟨hresult, hstate, hgraph, hkept⟩ := Pipeline.rounds_agree h n hp [v] hg
      exact ⟨hresult, .repeat hstate (some n), hgraph, hkept⟩
  | choose hd phase phase' =>
    obtain ⟨hresult, hstate, hgraph, hkept⟩ := Decision.evaluate_agree h hE hd hlambda v hg
    exact ⟨hresult, .choose hstate _ _, hgraph, hkept⟩
  | groupCount hr =>
    obtain ⟨hresult, hstate, hgraph, hkept⟩ := groupCounts_agree h hr [v] [] hg
    exact ⟨hresult.map _, .groupCount hstate, hgraph, hkept⟩
  | @project names r r' hr =>
    have hreset : Ring.Related R r.reset r'.reset := ⟨hr, rfl⟩
    obtain ⟨hresult, hstate, hgraph, hkept⟩ := projectEntries_agree h names hreset v hg
    exact ⟨hresult.map _, .project names hstate.items, hgraph, hkept⟩
  | order hl => exact ⟨.ok [v], .order hl, rfl, hg⟩

include hE in
theorem releaseWith_agree {s s' : Step} (hs : Step.Related R s s') (l : List Value) {g : Graph}
    (hg : G g) (hbarrier : s.isBarrier) :
    Outcome.Agree E (Step.Related R) G (s.releaseWith m l g) (s'.releaseWith m' l g) := by
  cases hs with
  | groupCount hr =>
    obtain ⟨hresult, hstate, hgraph, hkept⟩ := groupCounts_agree h hr l [] hg
    exact ⟨hresult.map _, .groupCount hstate, hgraph, hkept⟩
  | order hl =>
    obtain ⟨hresult, hstate, hgraph, hkept⟩ := Comparator.sort_agree h hE hl l hg
    exact ⟨hresult, .order hstate, hgraph, hkept⟩
  | _ => cases hbarrier

end Step

end Evaluating

end GraphTraversal
