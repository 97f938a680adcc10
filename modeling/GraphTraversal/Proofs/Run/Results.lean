import GraphTraversal.Proofs.Run.Agreement

/-! # Results as lists

What a run delivers, one result per pull, written down as a list, and the three ways in which a step
acts on such a list: it replaces values in place, cuts the list off, or holds the values back to the
end.  Handing a list to a consumer relates this view to the runs themselves.
-/

namespace GraphTraversal

abbrev Results := List (Except Error Value)

namespace Results

def ofOutcome : Except Error (List Value) → Results
  | .ok l => l.map .ok
  | .error e => [.error e]

def ofValues (l : List Value) : Results := l.map .ok

def values : Results → List Value
  | [] => []
  | .ok v :: l => v :: values l
  | .error _ :: l => values l

def errors : Results → Results
  | [] => []
  | .ok _ :: l => errors l
  | .error e :: l => .error e :: errors l

/-- Replaces each value in place; errors stay where they are. -/
def spread (f : Value → Except Error (List Value)) : Results → Results
  | [] => []
  | .ok v :: l => ofOutcome (f v) ++ spread f l
  | .error e :: l => .error e :: spread f l

/-- The results up to the `n`-th value, errors in between included. -/
def upTo : Nat → Results → Results
  | 0, _ => []
  | _ + 1, [] => []
  | n + 1, .ok v :: l => .ok v :: upTo n l
  | n + 1, .error e :: l => .error e :: upTo (n + 1) l

/-- The errors, followed by what is made of all values. -/
def gather (f : List Value → Except Error (List Value)) (l : Results) : Results :=
  errors l ++ ofOutcome (f (values l))

def first : Results → Except Error (Option Value)
  | [] => .ok none
  | .ok v :: _ => .ok (some v)
  | .error e :: _ => .error e

def collect : Results → Except Error (List Value)
  | [] => .ok []
  | .ok v :: l => (collect l).map (v :: ·)
  | .error e :: _ => .error e

theorem spread_append (f : Value → Except Error (List Value)) (l l' : Results) :
    spread f (l ++ l') = spread f l ++ spread f l' := by
  induction l with
  | nil => rfl
  | cons r l ih => cases r <;> simp [spread, ih]

@[simp] theorem upTo_nil (n : Nat) : upTo n [] = [] := by cases n <;> rfl

end Results

/-! ## Acts -/

/-- What a step does to values, apart from the graph and from what becomes of the step. -/
structure Act where
  kind : Kind
  expand : Value → Except Error (List Value)
  release : List Value → Except Error (List Value)

namespace Act

def apply (x : Act) (l : Results) : Results :=
  match x.kind with
  | .expanding => Results.spread x.expand l
  | .limiting quota => Results.upTo quota l
  | .gathering => Results.gather x.release l

def applyAll : List Act → Results → Results
  | [], l => l
  | x :: acts, l => applyAll acts (x.apply l)

theorem applyAll_append (xs ys : List Act) (l : Results) :
    applyAll (xs ++ ys) l = applyAll ys (applyAll xs l) := by
  induction xs generalizing l with
  | nil => rfl
  | cons x xs ih => exact ih (x.apply l)

end Act

/-! ## Agreement -/

section Agreement

variable {E : Error → Error → Prop}

abbrev Results.Agree (E : Error → Error → Prop) (l l' : Results) : Prop :=
  List.Forall₂ (EqUpTo E) l l'

structure Act.Agree (E : Error → Error → Prop) (x y : Act) : Prop where
  kind : x.kind = y.kind
  expand : ∀ v, EqUpTo E (x.expand v) (y.expand v)
  release : x.kind = .gathering → ∀ l, EqUpTo E (x.release l) (y.release l)

namespace Results

theorem ofOutcome_agree {r r' : Except Error (List Value)} (h : EqUpTo E r r') :
    Results.Agree E (ofOutcome r) (ofOutcome r') := by
  cases h with
  | ok l => exact List.forall₂_map_left_iff.2 (List.forall₂_map_right_iff.2
      (List.forall₂_same.2 fun v _ => .ok v))
  | error he => exact .cons (.error he) .nil

theorem agree_refl [Std.Refl E] (l : Results) : Results.Agree E l l :=
  List.forall₂_same.2 fun r _ => .refl r

theorem agree_trans [IsTrans Error E] {l l' l'' : Results}
    (h : Results.Agree E l l') (h' : Results.Agree E l' l'') : Results.Agree E l l'' := by
  induction h generalizing l'' with
  | nil => exact h'
  | cons hr _ ih =>
    cases h' with
    | cons hr' hl' =>
      refine .cons ?_ (ih hl')
      cases hr with
      | ok v => exact hr'
      | error he =>
        cases hr' with
        | error he' => exact .error (IsTrans.trans _ _ _ he he')

theorem spread_agree {f f' : Value → Except Error (List Value)}
    (hf : ∀ v, EqUpTo E (f v) (f' v)) {l l' : Results} (hl : Results.Agree E l l') :
    Results.Agree E (spread f l) (spread f' l') := by
  induction hl with
  | nil => exact .nil
  | cons hr _ ih =>
    cases hr with
    | ok v => exact List.rel_append (ofOutcome_agree (hf v)) ih
    | error he => exact .cons (.error he) ih

theorem upTo_agree (n : Nat) {l l' : Results} (hl : Results.Agree E l l') :
    Results.Agree E (upTo n l) (upTo n l') := by
  induction hl generalizing n with
  | nil => exact (upTo_nil n).symm ▸ .nil
  | cons hr _ ih =>
    cases n with
    | zero => exact .nil
    | succ n =>
      cases hr with
      | ok v => exact .cons (.ok v) (ih n)
      | error he => exact .cons (.error he) (ih (n + 1))

theorem values_eq_of_agree {l l' : Results} (hl : Results.Agree E l l') : values l = values l' := by
  induction hl with
  | nil => rfl
  | cons hr _ ih =>
    cases hr with
    | ok v => exact congr_arg (v :: ·) ih
    | error he => exact ih

theorem errors_agree {l l' : Results} (hl : Results.Agree E l l') :
    Results.Agree E (errors l) (errors l') := by
  induction hl with
  | nil => exact .nil
  | cons hr _ ih =>
    cases hr with
    | ok v => exact ih
    | error he => exact .cons (.error he) ih

theorem first_agree {l l' : Results} (hl : Results.Agree E l l') :
    EqUpTo E (first l) (first l') := by
  rcases hl with _ | ⟨_ | he, _⟩
  · exact .ok none
  · exact .ok _
  · exact .error he

theorem collect_agree {l l' : Results} (hl : Results.Agree E l l') :
    EqUpTo E (collect l) (collect l') := by
  induction hl with
  | nil => exact .ok []
  | cons hr _ ih =>
    cases hr with
    | ok v => exact ih.map _
    | error he => exact .error he

end Results

namespace Act

theorem Agree.refl [Std.Refl E] (x : Act) : Act.Agree E x x :=
  ⟨rfl, fun _ => .refl _, fun _ _ => .refl _⟩

theorem Agree.trans {x y z : Act} (h : Act.Agree Eq x y) (h' : Act.Agree E y z) :
    Act.Agree E x z :=
  ⟨h.kind.trans h'.kind, fun v => (h.expand v).trans (h'.expand v),
    fun hk l => (h.release hk l).trans (h'.release (h.kind.symm.trans hk) l)⟩

theorem apply_agree {x y : Act} (hx : Act.Agree E x y) {l l' : Results}
    (hl : Results.Agree E l l') : Results.Agree E (x.apply l) (y.apply l') := by
  rw [apply, apply, ← hx.kind]
  cases hkind : x.kind with
  | expanding => exact Results.spread_agree hx.expand hl
  | limiting quota => exact Results.upTo_agree quota hl
  | gathering =>
    have hvalues := Results.values_eq_of_agree hl
    refine List.rel_append (Results.errors_agree hl) (Results.ofOutcome_agree ?_)
    rw [← hvalues]
    exact hx.release hkind _

theorem applyAll_agree {xs ys : List Act} (hx : List.Forall₂ (Act.Agree E) xs ys) {l l' : Results}
    (hl : Results.Agree E l l') : Results.Agree E (applyAll xs l) (applyAll ys l') := by
  induction hx generalizing l l' with
  | nil => exact hl
  | cons hx _ ih => exact ih (apply_agree hx hl)

section Expanding

variable {xs : List Act} (hx : ∀ x ∈ xs, x.kind = .expanding)

include hx

end Expanding

end Act

theorem Results.agree_eq_iff {l l' : Results} : Results.Agree Eq l l' ↔ l = l' := by
  have h : (EqUpTo Eq : Except Error Value → Except Error Value → Prop) = Eq := by
    ext r r'
    exact eqUpTo_iff_eq
  rw [Results.Agree, h, List.forall₂_eq_eq_eq]

end Agreement

/-! ## Handing results over -/

def feed {α : Type} (c : Consumer α) : Results → α → Graph → Reply α × Results
  | [], a, g => (⟨a, g, true⟩, [])
  | r :: l, a, g =>
    let reply := c a g r
    if reply.more then feed c l reply.state reply.graph else (reply, l)

section Feeding

variable {α : Type} {c : Consumer α}

theorem feed_ofValues (l : List Value) (a : α) (g : Graph) :
    feed c (Results.ofValues l) a g = ((offer c l a g).1, Results.ofValues (offer c l a g).2) := by
  induction l generalizing a g with
  | nil => rfl
  | cons v l ih =>
    simp only [Results.ofValues, List.map_cons, feed, offer] at ih ⊢
    split
    · exact ih _ _
    · rfl

theorem feed_cons_of_more {r : Except Error Value} (l : Results) {a : α} {g : Graph}
    (h : (c a g r).more) : feed c (r :: l) a g = feed c l (c a g r).state (c a g r).graph := by
  simp [feed, h]

theorem feed_cons_of_enough {r : Except Error Value} (l : Results) {a : α} {g : Graph}
    (h : (c a g r).more = false) : feed c (r :: l) a g = (c a g r, l) := by
  simp [feed, h]

/-- A consumer that wants more has been handed everything. -/
theorem feed_rest_of_more {l : Results} {a : α} {g : Graph} (h : (feed c l a g).1.more) :
    (feed c l a g).2 = [] := by
  induction l generalizing a g with
  | nil => rfl
  | cons r l ih =>
    by_cases hr : (c a g r).more
    · simp only [feed, hr, if_true] at h ⊢
      exact ih h
    · simp [feed, hr] at h

theorem feed_append_of_more {l : Results} (l' : Results) {a : α} {g : Graph}
    (h : (feed c l a g).1.more) :
    feed c (l ++ l') a g = feed c l' (feed c l a g).1.state (feed c l a g).1.graph := by
  induction l generalizing a g with
  | nil => rfl
  | cons r l ih =>
    by_cases hr : (c a g r).more
    · simp only [List.cons_append, feed, hr, if_true] at h ⊢
      exact ih h
    · simp [feed, hr] at h

theorem feed_append_of_enough {l : Results} (l' : Results) {a : α} {g : Graph}
    (h : (feed c l a g).1.more = false) :
    feed c (l ++ l') a g = ((feed c l a g).1, (feed c l a g).2 ++ l') := by
  induction l generalizing a g with
  | nil => simp [feed] at h
  | cons r l ih =>
    by_cases hr : (c a g r).more
    · simp only [List.cons_append, feed, hr, if_true] at h ⊢
      exact ih h
    · simp [feed, hr]

theorem feed_one (r : Except Error Value) (a : α) (g : Graph) :
    feed c [r] a g = (c a g r, []) := by
  rcases h : c a g r with ⟨b, g', more⟩
  cases more <;> simp [feed, h]

end Feeding

end GraphTraversal
