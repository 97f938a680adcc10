import GraphTraversal.Proofs.Step.Memory
import GraphTraversal.Traversal.Basic

/-! # Routing

A choice sends every input into one of its branches or into none.  Which branch this is depends on what
the test or the selector says of the input and on the calls that registered branches, in their order.
Calls that were refused, calls under a token that is taken, the inputs that came before and the phase in
which the choice stands make no difference.
-/

namespace GraphTraversal

/-! ## Evaluations from outside -/

def Outcome.seen {σ α : Type} (o : Outcome σ α) : Except Error α × Graph := (o.result, o.graph)

namespace Pipeline

def answer (p : Pipeline) (v : Value) (g : Graph) : Except Error (List Value) × Graph :=
  (p.all p.machine v g).seen

def yields (p : Pipeline) (v : Value) (g : Graph) : Except Error Bool × Graph :=
  let o := p.first p.machine v g
  (o.result.map (·.isSome), o.graph)

section Machines

variable {p q : Pipeline} (h : p.rewound = q.rewound) {n : Nat} (hn : p.height ≤ n) (v : Value)
  (g : Graph)

include h hn

/-- A machine for higher trees and cursors that have moved make no difference. -/
theorem seen_all : (p.all (Step.machine n) v g).seen = q.answer v g := by
  have hchildren := Step.machine_layered.childrenAgree (.all _) (Step.machine_agree n q.height)
  obtain ⟨hresult, -, hgraph, -⟩ :=
    hchildren.all ⟨h, hn, le_rfl, p.everywhere_true⟩ v (g := g) trivial
  exact Prod.ext (eqUpTo_iff_eq.1 hresult) hgraph

theorem seen_first : (p.first (Step.machine n) v g).seen = (q.first q.machine v g).seen := by
  have hchildren := Step.machine_layered.childrenAgree (.all _) (Step.machine_agree n q.height)
  obtain ⟨hresult, -, hgraph, -⟩ :=
    hchildren.first ⟨h, hn, le_rfl, p.everywhere_true⟩ v (g := g) trivial
  exact Prod.ext (eqUpTo_iff_eq.1 hresult) hgraph

end Machines

end Pipeline

/-! ## Branches -/

namespace Decision

/-- The branches with a token, in the order of their registration, and then the fallback. -/
def branches (d : Decision) : List Pipeline := d.options.map (·.2) ++ d.fallback?.toList

theorem branches_selector (pick : Pipeline) (options : List (Value × Pipeline))
    (fallback : Option Pipeline) :
    (selector pick options fallback).branches = options.map (·.2) ++ fallback.toList := rfl

/-- The branch of a token: the first option under it, else the fallback. -/
def branch? (d : Decision) (token : Value) : Option Pipeline :=
  ((d.options.find? (·.1 = token)).map (·.2)).or d.fallback?

/-- The branch `p` in the place `i` was run on an input, and no other. -/
structure RanAt (m : Machine Step) (d : Decision) (i : Nat) (p : Pipeline) (v : Value) (g : Graph)
    (o : Outcome Decision (List Value)) : Prop where
  stands : d.branches[i]? = some p
  seen : o.seen = (p.all m v g).seen
  branches : o.state.branches = d.branches.set i (p.all m v g).state

section Following

variable {m : Machine Step} {d : Decision} (v : Value) (g : Graph)

theorem runOption_ran {l : List (Value × Pipeline)} {i : Nat} {x : Value × Pipeline}
    (h : l[i]? = some x) : (runOption m v g l i).seen = (x.2.all m v g).seen ∧
      (runOption m v g l i).state.map (·.2) = (l.map (·.2)).set i (x.2.all m v g).state := by
  induction l generalizing i with
  | nil => cases h
  | cons y l ih =>
    cases i with
    | zero =>
      cases h
      exact ⟨rfl, rfl⟩
    | succ i =>
      obtain ⟨hseen, hstate⟩ := ih h
      exact ⟨hseen, congrArg (y.2 :: ·) hstate⟩

theorem follow_option {i : Nat} {x : Value × Pipeline} (h : d.options[i]? = some x) :
    RanAt m d i x.2 v g (d.follow m (.option i) v g) := by
  cases d with
  | lambda test yes no =>
    match i, h with
    | 0, rfl | 1, rfl => exact ⟨rfl, rfl, rfl⟩
  | predicate test yes no =>
    match i, h with
    | 0, rfl | 1, rfl => exact ⟨rfl, rfl, rfl⟩
  | selector pick options fallback =>
    obtain ⟨hseen, hstate⟩ := runOption_ran (m := m) v g h
    have hi : i < (options.map (·.2)).length := by
      rw [List.length_map]
      exact (List.getElem?_eq_some_iff.1 h).1
    constructor
    · rw [branches_selector, List.getElem?_append_left hi]
      exact List.getElem?_map.trans (congrArg (Option.map (·.2)) h)
    · simp only [follow]
      exact hseen
    · simp only [follow]
      rw [branches_selector, branches_selector, List.set_append_left i _ hi]
      exact congrArg (· ++ fallback.toList) hstate

theorem follow_fallback {p : Pipeline} (h : d.fallback? = some p) :
    RanAt m d d.options.length p v g (d.follow m .fallback v g) := by
  cases d with
  | lambda | predicate => cases h
  | selector pick options fallback =>
    cases h
    have hi : (options.map (·.2)).length = options.length := List.length_map _
    change RanAt m _ options.length _ _ _ _
    constructor
    · rw [branches_selector, List.getElem?_append_right hi.le, hi, Nat.sub_self]
      rfl
    · rfl
    · rw [branches_selector, List.set_append_right _ _ hi.le, hi, Nat.sub_self]
      rfl

theorem follow_nowhere : d.follow m .nowhere v g = ⟨.ok [], d, g⟩ := by
  cases d <;> rfl

/-- The route of a token leads to its branch. -/
theorem follow_routeOf (token : Value) :
    (∃ i p, d.branch? token = some p ∧ RanAt m d i p v g (d.follow m (d.routeOf token) v g)) ∨
      d.branch? token = none ∧ d.follow m (d.routeOf token) v g = ⟨.ok [], d, g⟩ := by
  have hfind : d.options.find? (·.1 = token) =
      (d.tokens.findIdx? (· = token)).bind (d.options[·]?) := by
    rw [List.find?_eq_bind_findIdx?_getElem?, tokens, List.findIdx?_map]
    rfl
  rw [branch?, routeOf, hfind]
  cases hi : d.tokens.findIdx? (· = token) with
  | some i =>
    obtain ⟨hlength, -⟩ := List.findIdx?_eq_some_iff_getElem.1 hi
    rw [tokens, List.length_map] at hlength
    have hx := List.getElem?_eq_getElem hlength
    exact .inl ⟨i, _, by simp [hx], follow_option v g hx⟩
  | none =>
    cases hfallback : d.fallback? with
    | some p =>
      have hran := follow_fallback (m := m) v g hfallback
      exact .inl ⟨_, p, rfl, by simpa [hasFallback, hfallback] using hran⟩
    | none =>
      have hnowhere := follow_nowhere (m := m) (d := d) v g
      exact .inr ⟨rfl, by simpa [hasFallback, hfallback] using hnowhere⟩

/-! ## Evaluations -/

/-- Finding the token leaves the branches alone. -/
theorem branches_token : (d.token m v g).state.branches = d.branches := by
  cases d <;> rfl

theorem branch?_token (token : Value) : (d.token m v g).state.branch? token = d.branch? token := by
  cases d <;> rfl

variable {v g} {g' : Graph}

theorem evaluate_of_error {e : Error} (h : (d.token m v g).seen = (.error e, g')) :
    (d.evaluate m v g).seen = (.error e, g') ∧ (d.evaluate m v g).state.1.branches = d.branches := by
  obtain ⟨hresult, hgraph⟩ := Prod.mk.inj h
  simp only [evaluate, hresult]
  exact ⟨congrArg (Prod.mk _) hgraph, branches_token v g⟩

theorem evaluate_follow {token : Value} {d' : Decision} (h : d.token m v g = ⟨.ok token, d', g'⟩) :
    (d.evaluate m v g).seen = (d'.follow m (d'.routeOf token) v g').seen ∧
      (d.evaluate m v g).state.1 = (d'.follow m (d'.routeOf token) v g').state := by
  simp only [evaluate, h]
  split <;> simp [Outcome.seen, *]

theorem evaluate_of_token {token : Value} (h : (d.token m v g).seen = (.ok token, g')) :
    (∃ i p, d.branch? token = some p ∧ d.branches[i]? = some p ∧
      (d.evaluate m v g).seen = (p.all m v g').seen ∧
        (d.evaluate m v g).state.1.branches = d.branches.set i (p.all m v g').state) ∨
      d.branch? token = none ∧ (d.evaluate m v g).seen = (.ok [], g') ∧
        (d.evaluate m v g).state.1.branches = d.branches := by
  have hbranches := branches_token (m := m) (d := d) v g
  have hbranch := branch?_token (m := m) (d := d) v g token
  rcases htoken : d.token m v g with ⟨r, d', g₁⟩
  rw [htoken] at h hbranches hbranch
  cases h
  obtain ⟨hseen, hstate⟩ := evaluate_follow htoken
  rw [hseen, hstate, ← hbranches, ← hbranch]
  obtain ⟨i, p, hp, hran⟩ | ⟨hnone, hfollow⟩ := follow_routeOf (m := m) (d := d') v g₁ token
  · exact .inl ⟨i, p, hp, hran.stands, hran.seen, hran.branches⟩
  · rw [hfollow]
    exact .inr ⟨hnone, rfl, rfl⟩

end Following

/-! ## Rewound choices -/

theorem options_rewound (d : Decision) :
    d.rewound.options = d.options.map fun o => (o.1, o.2.rewound) := by
  cases d with
  | lambda | predicate => rfl
  | selector pick options fallback => rw [rewound_selector]; rfl

theorem fallback?_rewound (d : Decision) : d.rewound.fallback? = d.fallback?.map (·.rewound) := by
  cases d with
  | lambda | predicate => rfl
  | selector pick options fallback => rw [rewound_selector]; rfl

theorem branch?_rewound (d : Decision) (token : Value) :
    d.rewound.branch? token = (d.branch? token).map (·.rewound) := by
  simp only [branch?, options_rewound, fallback?_rewound, List.find?_map, Option.map_or,
    Option.map_map, Function.comp_def]

theorem mem_children_of_mem_branches {d : Decision} {p : Pipeline} (h : p ∈ d.branches) :
    p ∈ d.children := by
  cases d with
  | lambda => exact h
  | predicate => exact List.mem_cons_of_mem _ h
  | selector => exact List.mem_cons_of_mem _ h

end Decision

/-! ## One input -/

namespace Step

def branches : Step → List Pipeline
  | .choose d _ => d.branches
  | _ => []

/-- An input goes into a branch: the step makes of it what the branch makes of it on the graph `g'`, and
no other branch is run. -/
structure Takes (s : Step) (branch : Pipeline) (v : Value) (g g' : Graph) : Prop where
  seen : (s.expand v g).seen = branch.answer v g'
  only : ∃ i p p', s.branches[i]? = some p ∧ p.rewound = branch.rewound ∧
    (s.expand v g).state.branches = s.branches.set i p'

structure TakesNone (s : Step) (v : Value) (g : Graph) (r : Except Error (List Value)) (g' : Graph) :
    Prop where
  seen : (s.expand v g).seen = (r, g')
  untouched : (s.expand v g).state.branches = s.branches

section Choosing

variable {d D : Decision} {phase : Phase} {n : Nat} (hn : (Step.choose d phase).height = n + 1)
  {v : Value} {g g' : Graph}

include hn

theorem expand_choose : (Step.choose d phase).expand v g =
    ⟨(d.evaluate (machine n) v g).result,
      .choose (d.evaluate (machine n) v g).state.1 .unevaluated,
      (d.evaluate (machine n) v g).graph⟩ := by
  rw [expand, hn]
  rfl

theorem takesNone_of_error {e : Error} (h : (d.token (machine n) v g).seen = (.error e, g')) :
    (Step.choose d phase).TakesNone v g (.error e) g' := by
  obtain ⟨hseen, hbranches⟩ := Decision.evaluate_of_error h
  constructor
  · rw [expand_choose hn]
    exact hseen
  · rw [expand_choose hn]
    exact hbranches

variable (hd : d.rewound = D.rewound) {token : Value}
  (h : (d.token (machine n) v g).seen = (.ok token, g'))

include hd h

theorem takesNone_of_token (hnone : D.branch? token = none) :
    (Step.choose d phase).TakesNone v g (.ok []) g' := by
  have hbranch : (d.branch? token).map (·.rewound) = none := by
    rw [← Decision.branch?_rewound, hd, Decision.branch?_rewound, hnone]
    rfl
  obtain ⟨i, p, hp, -⟩ | ⟨-, hseen, hbranches⟩ := Decision.evaluate_of_token h
  · rw [hp] at hbranch
    cases hbranch
  · constructor
    · rw [expand_choose hn]
      exact hseen
    · rw [expand_choose hn]
      exact hbranches

theorem takes_of_token {branch : Pipeline} (hsome : D.branch? token = some branch) :
    (Step.choose d phase).Takes branch v g g' := by
  have hbranch : (d.branch? token).map (·.rewound) = some branch.rewound := by
    rw [← Decision.branch?_rewound, hd, Decision.branch?_rewound, hsome]
    rfl
  obtain ⟨i, p, hp, hstands, hseen, hbranches⟩ | ⟨hnone, -⟩ := Decision.evaluate_of_token h
  · rw [hp] at hbranch
    have hrewound : p.rewound = branch.rewound := Option.some.inj hbranch
    have hheight : p.height ≤ n := height_le_succ_iff.1 hn.le p
      (Decision.mem_children_of_mem_branches (List.mem_of_getElem? hstands))
    constructor
    · rw [expand_choose hn]
      exact hseen.trans (Pipeline.seen_all hrewound hheight v g')
    · rw [expand_choose hn]
      exact ⟨i, p, _, hstands, hrewound, hbranches⟩
  · rw [hnone] at hbranch
    cases hbranch

end Choosing

/-! ## Registrations -/

/-- What may happen to a choice: a branch is registered, or an input is routed. -/
inductive Event where
  | register (token : OptionToken) (branch : Pipeline)
  | route (v : Value) (g : Graph)

/-- The step after an event.  A registration that is refused leaves it as it is. -/
def undergo (s : Step) : Event → Step
  | .register token branch =>
    match s.addOption token branch with
    | .ok s => s
    | .error _ => s
  | .route v g => (s.expand v g).state

def undergoAll (events : List Event) (s : Step) : Step := events.foldl undergo s

/-- The calls among the events that register a branch, the refused ones included. -/
def registrations (events : List Event) : List (OptionToken × Pipeline) :=
  events.filterMap fun
    | .register token branch => some (token, branch)
    | .route .. => none

end Step

namespace Decision

def register (d : Decision) (call : OptionToken × Pipeline) : Decision :=
  match d.addOption call.1 call.2 with
  | .ok d => d
  | .error _ => d

theorem rewound_register (d : Decision) (token : OptionToken) (branch : Pipeline) :
    (d.register (token, branch)).rewound = d.rewound.register (token, branch.rewound) := by
  cases d with
  | lambda | predicate => rfl
  | selector pick options fallback =>
    cases token with
    | value t => simp [register, addOption, rewound_selector]
    | otherwise => cases fallback <;> simp [register, addOption, rewound_selector]

end Decision

namespace Step

/-- Registrations and inputs in any order leave a choice that looks, rewound, as after the registrations
alone. -/
theorem undergoAll_choose (events : List Event) {d D : Decision} (hd : d.rewound = D.rewound)
    (phase : Phase) : ∃ d' phase', undergoAll events (.choose d phase) = .choose d' phase' ∧
      d'.rewound = ((registrations events).foldl Decision.register D).rewound := by
  -- inputs move cursors, so the two decisions are followed up to rewinding
  induction events generalizing d D phase with
  | nil => exact ⟨d, phase, rfl, hd⟩
  | cons event events ih =>
    cases event with
    | register token branch =>
      have hstep : (Step.choose d phase).undergo (.register token branch) =
          .choose (d.register (token, branch)) phase := by
        simp only [undergo, addOption, Decision.register]
        cases d.addOption token branch <;> rfl
      have hrewound : (d.register (token, branch)).rewound = (D.register (token, branch)).rewound := by
        rw [Decision.rewound_register, hd, Decision.rewound_register]
      rw [undergoAll, List.foldl_cons, hstep]
      exact ih hrewound phase
    | route v g =>
      obtain ⟨n, hn⟩ := (Step.choose d phase).exists_height_eq_succ
      rw [undergoAll, List.foldl_cons, undergo, expand_choose hn]
      exact ih ((Decision.evaluate_rewound (machine_keeps n) d v g).trans hd) .unevaluated

end Step

/-! ## Choices by value -/

/-- The branch of a value, by the calls that registered branches: the earliest under the value, else the
earliest fallback. -/
def branchFor (calls : List (OptionToken × Pipeline)) (token : Value) : Option Pipeline :=
  ((calls.find? (·.1 = .value token)).or (calls.find? (·.1 = .otherwise))).map (·.2)

/-- A call under a token that is taken makes no difference. -/
theorem branchFor_append {calls : List (OptionToken × Pipeline)} {token : OptionToken}
    (h : token ∈ calls.map (·.1)) (branch : Pipeline) (t : Value) :
    branchFor (calls ++ [(token, branch)]) t = branchFor calls t := by
  have hfind (u : OptionToken) :
      (calls ++ [(token, branch)]).find? (·.1 = u) = calls.find? (·.1 = u) := by
    rw [List.find?_append]
    cases hu : calls.find? (·.1 = u) with
    | some c => rfl
    | none =>
      obtain ⟨c, hc, rfl⟩ := List.mem_map.1 h
      have hne : ¬c.1 = u := by simpa using List.find?_eq_none.1 hu c hc
      simp [hne]
  rw [branchFor, branchFor, hfind, hfind]

namespace Decision

section Registering

variable (pick : Pipeline) (options : List (Value × Pipeline)) (fallback : Option Pipeline)

theorem register_value (t : Value) (branch : Pipeline) :
    (selector pick options fallback).register (.value t, branch) =
      selector pick (options ++ [(t, branch)]) fallback := by
  cases fallback <;> rfl

theorem register_otherwise (branch : Pipeline) :
    (selector pick options fallback).register (.otherwise, branch) =
      selector pick options (fallback.or (some branch)) := by
  cases fallback <;> rfl

/-- Options are kept in order, and the first fallback stays. -/
theorem foldl_register_selector (calls : List (OptionToken × Pipeline)) :
    ∃ options' fallback', calls.foldl register (selector pick options fallback) =
        selector pick options' fallback' ∧
      (∀ t, (options'.find? (·.1 = t)).map (·.2) = ((options.find? (·.1 = t)).map (·.2)).or
        ((calls.find? (·.1 = .value t)).map (·.2))) ∧
      fallback' = fallback.or ((calls.find? (·.1 = .otherwise)).map (·.2)) := by
  induction calls generalizing options fallback with
  | nil => exact ⟨options, fallback, rfl, fun t => by simp, by simp⟩
  | cons call calls ih =>
    obtain ⟨token, branch⟩ := call
    cases token with
    | value u =>
      rw [List.foldl_cons, register_value]
      obtain ⟨options', fallback', hall, hoptions, hfallback⟩ := ih (options ++ [(u, branch)]) fallback
      refine ⟨options', fallback', hall, fun t => (hoptions t).trans ?_, by simpa using hfallback⟩
      rw [List.find?_append]
      by_cases hu : u = t
      · cases options.find? (·.1 = t) <;> simp [hu]
      · simp [hu]
    | otherwise =>
      rw [List.foldl_cons, register_otherwise]
      obtain ⟨options', fallback', hall, hoptions, hfallback⟩ := ih options (fallback.or (some branch))
      exact ⟨options', fallback', hall, fun t => by simpa using hoptions t, by simpa using hfallback⟩

end Registering

end Decision

namespace Step

structure RoutesByValue (s : Step) (pick : Pipeline) (calls : List (OptionToken × Pipeline)) :
    Prop where
  failed : ∀ {v g e g'}, pick.answer v g = (.error e, g') → s.TakesNone v g (.error e) g'
  ambiguous : ∀ {v g l g'}, pick.answer v g = (.ok l, g') → l.length ≠ 1 →
    s.TakesNone v g (.error (.selection l.length)) g'
  unmatched : ∀ {v g t g'}, pick.answer v g = (.ok [t], g') → branchFor calls t = none →
    s.TakesNone v g (.ok []) g'
  matched : ∀ {v g t g' branch}, pick.answer v g = (.ok [t], g') → branchFor calls t = some branch →
    s.Takes branch v g g'

/-- A choice by value takes any option, but no fallback after the first. -/
structure TakesOptions (s : Step) (calls : List (OptionToken × Pipeline)) : Prop where
  value : ∀ t branch, ∃ s', s.addOption (.value t) branch = .ok s'
  firstFallback : .otherwise ∉ calls.map (·.1) → ∀ branch, ∃ s', s.addOption .otherwise branch = .ok s'
  secondFallback : .otherwise ∈ calls.map (·.1) → ∀ branch,
    s.addOption .otherwise branch = .error (.invalidOption .secondFallback) ∧
      s.undergo (.register .otherwise branch) = s

/-- The choice by value that registrations and inputs lead to. -/
theorem undergoAll_selector (pick : Pipeline) (phase : Phase) (events : List Event) :
    ∃ (pick' : Pipeline) (options : List (Value × Pipeline)) (fallback : Option Pipeline)
        (phase' : Phase) (D : Decision),
      undergoAll events (.choose (.selector pick [] none) phase) =
        .choose (.selector pick' options fallback) phase' ∧
      pick'.rewound = pick.rewound ∧ (Decision.selector pick' options fallback).rewound = D.rewound ∧
      (∀ t, D.branch? t = branchFor (registrations events) t) ∧
      (fallback.isSome ↔ .otherwise ∈ (registrations events).map (·.1)) := by
  obtain ⟨d, phase', hs, hd⟩ :=
    undergoAll_choose events (rfl : (Decision.selector pick [] none).rewound = _) phase
  obtain ⟨options, fallback, hD, hoptions, hfallback⟩ :=
    Decision.foldl_register_selector pick [] none (registrations events)
  rw [hD] at hd
  cases Decision.related_of_rewound hd with
  | @selector pick' _ options' _ fallback' _ hpick _ hfallback' =>
    refine ⟨pick', options', fallback', phase', _, hs, hpick, hd, fun t => ?_, ?_⟩
    · change ((options.find? (·.1 = t)).map (·.2)).or fallback = _
      rw [hoptions, hfallback, branchFor, Option.map_or]
      rfl
    · have hsome : fallback'.isSome = fallback.isSome := by cases hfallback' <;> rfl
      rw [hsome, hfallback]
      simp

theorem routesByValue (pick : Pipeline) (phase : Phase) (events : List Event) :
    (undergoAll events (.choose (.selector pick [] none) phase)).RoutesByValue pick
      (registrations events) := by
  obtain ⟨pick', options, fallback, phase', D, hs, hpick, hd, hbranch, -⟩ :=
    undergoAll_selector pick phase events
  rw [hs]
  obtain ⟨n, hn⟩ := (Step.choose (.selector pick' options fallback) phase').exists_height_eq_succ
  have hheight : pick'.height ≤ n := height_le_succ_iff.1 hn.le pick' List.mem_cons_self
  have htoken {v : Value} {g g' : Graph} {r : Except Error (List Value)}
      (h : pick.answer v g = (r, g')) :
      (pick'.all (machine n) v g).result = r ∧ (pick'.all (machine n) v g).graph = g' :=
    Prod.mk.inj ((Pipeline.seen_all hpick hheight v g).trans h)
  constructor
  · intro v g e g' h
    obtain ⟨hresult, hgraph⟩ := htoken h
    apply takesNone_of_error hn
    simp only [Decision.token, Outcome.seen, hresult, hgraph]
  · intro v g l g' h hl
    obtain ⟨hresult, hgraph⟩ := htoken h
    apply takesNone_of_error hn
    rcases l with _ | ⟨t, _ | ⟨u, l⟩⟩
    · simp only [Decision.token, Outcome.seen, hresult, hgraph]
    · exact absurd rfl hl
    · simp only [Decision.token, Outcome.seen, hresult, hgraph]
  · intro v g t g' h hnone
    obtain ⟨hresult, hgraph⟩ := htoken h
    have ht : ((Decision.selector pick' options fallback).token (machine n) v g).seen = (.ok t, g') := by
      simp only [Decision.token, Outcome.seen, hresult, hgraph]
    exact takesNone_of_token hn hd ht ((hbranch t).trans hnone)
  · intro v g t g' branch h hsome
    obtain ⟨hresult, hgraph⟩ := htoken h
    have ht : ((Decision.selector pick' options fallback).token (machine n) v g).seen = (.ok t, g') := by
      simp only [Decision.token, Outcome.seen, hresult, hgraph]
    exact takes_of_token hn hd ht ((hbranch t).trans hsome)

theorem takesOptions (pick : Pipeline) (phase : Phase) (events : List Event) :
    (undergoAll events (.choose (.selector pick [] none) phase)).TakesOptions
      (registrations events) := by
  obtain ⟨pick', options, fallback, phase', D, hs, -, -, -, hfallback⟩ :=
    undergoAll_selector pick phase events
  rw [hs]
  constructor
  · intro t branch
    cases fallback <;> exact ⟨_, rfl⟩
  · intro h branch
    cases fallback with
    | none => exact ⟨_, rfl⟩
    | some p => exact absurd (hfallback.1 rfl) h
  · intro h branch
    cases fallback with
    | none => cases hfallback.2 h
    | some p => exact ⟨rfl, rfl⟩

/-- The branches decide: where two choices by the same selector send values to the same branches, they
cannot be told apart. -/
theorem RoutesByValue.seen_eq {s s' : Step} {pick : Pipeline} {calls calls' : List (OptionToken × Pipeline)}
    (h : s.RoutesByValue pick calls) (h' : s'.RoutesByValue pick calls')
    (hcalls : ∀ t, branchFor calls t = branchFor calls' t) (v : Value) (g : Graph) :
    (s.expand v g).seen = (s'.expand v g).seen := by
  rcases hanswer : pick.answer v g with ⟨_ | l, g'⟩
  · exact (h.failed hanswer).seen.trans (h'.failed hanswer).seen.symm
  · by_cases hl : l.length = 1
    · obtain ⟨t, rfl⟩ := List.length_eq_one_iff.1 hl
      cases hbranch : branchFor calls t with
      | none =>
        exact (h.unmatched hanswer hbranch).seen.trans
          (h'.unmatched hanswer ((hcalls t).symm.trans hbranch)).seen.symm
      | some branch =>
        exact (h.matched hanswer hbranch).seen.trans
          (h'.matched hanswer ((hcalls t).symm.trans hbranch)).seen.symm
    · exact (h.ambiguous hanswer hl).seen.trans (h'.ambiguous hanswer hl).seen.symm

/-! ## Choices by a test -/

/-- A choice by a test sends inputs into one of its two branches and takes no others. -/
structure RoutesByTest (s : Step) (verdict : Value → Graph → Except Error Bool × Graph)
    (yes no : Pipeline) : Prop where
  failed : ∀ {v g e g'}, verdict v g = (.error e, g') → s.TakesNone v g (.error e) g'
  decided : ∀ {v g b g'}, verdict v g = (.ok b, g') → s.Takes (if b then yes else no) v g g'
  fixed : ∀ token branch, s.addOption token branch = .error (.invalidOption .fixedBranches)

/-- The choice by a test that registrations and inputs lead to. -/
theorem undergoAll_test {D : Decision} (hD : ∀ call, D.register call = D) (phase : Phase)
    (events : List Event) : ∃ d phase', undergoAll events (.choose D phase) = .choose d phase' ∧
      d.rewound = D.rewound := by
  have hfold : (registrations events).foldl Decision.register D = D := by
    induction registrations events with
    | nil => rfl
    | cons call calls ih => rw [List.foldl_cons, hD, ih]
  obtain ⟨d, phase', hs, hd⟩ := undergoAll_choose events (rfl : D.rewound = _) phase
  exact ⟨d, phase', hs, hfold ▸ hd⟩

theorem routesByLambda (test : Lambda) (yes no : Pipeline) (phase : Phase) (events : List Event) :
    (undergoAll events (.choose (.lambda test yes no) phase)).RoutesByTest
      (fun v g => (.ok (test.test g v), test.leaves g v)) yes no := by
  obtain ⟨d, phase', hs, hd⟩ :=
    undergoAll_test (D := .lambda test yes no) (fun _ => rfl) phase events
  rw [hs]
  obtain ⟨n, hn⟩ := (Step.choose d phase').exists_height_eq_succ
  cases Decision.related_of_rewound hd with
  | @lambda _ yes' _ no' _ hyes hno =>
    constructor
    · intro v g e g' h
      cases h
    · intro v g b g' h
      cases h
      have ht : ((Decision.lambda test yes' no').token (machine n) v g).seen =
          (.ok (.boolean (test.test g v)), test.leaves g v) := rfl
      refine takes_of_token hn hd ht ?_
      cases test.test g v <;> rfl
    · intro token branch
      rfl

theorem routesByPredicate (test yes no : Pipeline) (phase : Phase) (events : List Event) :
    (undergoAll events (.choose (.predicate test yes no) phase)).RoutesByTest test.yields yes no := by
  obtain ⟨d, phase', hs, hd⟩ :=
    undergoAll_test (D := .predicate test yes no) (fun _ => rfl) phase events
  rw [hs]
  obtain ⟨n, hn⟩ := (Step.choose d phase').exists_height_eq_succ
  cases Decision.related_of_rewound hd with
  | @predicate test' _ yes' _ no' _ htest hyes hno =>
    have hheight : test'.height ≤ n := height_le_succ_iff.1 hn.le test' List.mem_cons_self
    have htoken (v : Value) (g : Graph) :
        ((Decision.predicate test' yes' no').token (machine n) v g).seen =
          ((test.yields v g).1.map .boolean, (test.yields v g).2) := by
      obtain ⟨hresult, hgraph⟩ := Prod.mk.inj (Pipeline.seen_first htest hheight v g)
      simp only [Decision.token, Outcome.seen, hresult, hgraph, Pipeline.yields]
      cases (test.first test.machine v g).result <;> rfl
    constructor
    · intro v g e g' h
      refine takesNone_of_error hn ((htoken v g).trans ?_)
      rw [h]
      rfl
    · intro v g b g' h
      have ht : ((Decision.predicate test' yes' no').token (machine n) v g).seen =
          (.ok (.boolean b), g') := by
        rw [htoken, h]
        rfl
      refine takes_of_token hn hd ht ?_
      cases b <;> rfl
    · intro token branch
      rfl

/-! ## Exactly one branch -/

/-- A choice sends every input through exactly one branch.  Take a choice in whatever phase, let branches
be registered, with success or not, and inputs be routed, in any order.  A choice by value returns an
error of its selector; it returns a selection error if the selector does not yield exactly one value;
otherwise the input goes into the branch that was registered first under the value, else into the first
fallback, else into none.  It refuses a second fallback and stays as it is, and a call under a token that
is taken never makes a difference.  A choice by a test refuses every option, and the input goes into
the first branch if the test holds, else into the second. -/
theorem choose_takes_one_branch (events : List Event) (phase : Phase) :
    (∀ pick, let s := undergoAll events (.choose (.selector pick [] none) phase)
      let calls := registrations events
      s.RoutesByValue pick calls ∧ s.TakesOptions calls ∧
        ∀ token ∈ calls.map (·.1), ∀ branch v g,
          ((s.undergo (.register token branch)).expand v g).seen = (s.expand v g).seen) ∧
    (∀ test yes no, (undergoAll events (.choose (.lambda test yes no) phase)).RoutesByTest
      (fun v g => (.ok (test.test g v), test.leaves g v)) yes no) ∧
    ∀ test yes no, (undergoAll events (.choose (.predicate test yes no) phase)).RoutesByTest
      test.yields yes no := by
  refine ⟨fun pick => ?_, fun test yes no => routesByLambda test yes no phase events,
    fun test yes no => routesByPredicate test yes no phase events⟩
  refine ⟨routesByValue pick phase events, takesOptions pick phase events, ?_⟩
  intro token htoken branch v g
  have hmore := routesByValue pick phase (events ++ [.register token branch])
  rw [undergoAll, List.foldl_append, registrations, List.filterMap_append] at hmore
  exact hmore.seen_eq (routesByValue pick phase events) (branchFor_append htoken branch) v g

/-- Of two branches under one value the first is taken, whatever else was registered or routed. -/
theorem choose_first_of_two :
    let adding (text : String) : Pipeline := { steps := [.addVertex text] }
    let events : List Event := [.register (.value (.integer 1)) (adding "first"),
      .register .otherwise (adding "other"), .route (.integer 2) .empty,
      .register (.value (.integer 1)) (adding "second"), .register .otherwise (adding "late")]
    let s := undergoAll events (.choose (.selector { steps := [.identity] } [] none) .unevaluated)
    (s.expand (.integer 1) .empty).seen = (.ok [.vertex ⟨1⟩], (Graph.empty.addVertex "first").2) ∧
      (s.expand (.integer 3) .empty).seen = (.ok [.vertex ⟨1⟩], (Graph.empty.addVertex "other").2) ∧
      s.addOption .otherwise (adding "last") = .error (.invalidOption .secondFallback) := by
  intro adding events s
  obtain ⟨hroutes, hoptions, -⟩ :=
    (choose_takes_one_branch events .unevaluated).1 { steps := [.identity] }
  refine ⟨?_, ?_, (hoptions.secondFallback (by decide) _).1⟩
  · have hfirst : branchFor (registrations events) (.integer 1) = some (adding "first") := by rfl
    exact (hroutes.matched (by rfl) hfirst).seen.trans (by decide)
  · have hother : branchFor (registrations events) (.integer 3) = some (adding "other") := by rfl
    exact (hroutes.matched (by rfl) hother).seen.trans (by decide)

end Step

end GraphTraversal
