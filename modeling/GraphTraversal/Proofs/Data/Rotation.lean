import GraphTraversal.Proofs.Data.Ring

/-! # Rotation of rings

A ring is used by calls that hand out the next element, which may be edited where it stands, that start
the rotation over, or that add an element.  Whatever calls have been made, the cursor stands within the
ring, every element keeps its place, and the next elements come round robin from the one behind the
cursor; an element that is added comes last before the rotation wraps.  A copy of a ring has the history
of the ring up to that point and goes on by itself.
-/

namespace GraphTraversal.Ring

variable {α σ τ : Type}

/-! ## Calls -/

inductive Call (α : Type) where
  /-- Hands out the element whose turn it is, to be edited where it stands. -/
  | next (edit : α → α)
  | reset
  | add (x : α)

namespace Call

def perform : Call α → Ring α → Ring α
  | .next edit, r =>
    match r.next? with
    | none => r
    | some (x, r) => r.setCurrent (edit x)
  | .reset, r => r.reset
  | .add x, r => r.push x

def added : Call α → List α
  | .add x => [x]
  | .next _ | .reset => []

def editAt (k : Nat) (r : Ring α) : Call α → α → α
  | .next edit => if k < r.items.length ∧ r.turn = k then edit else id
  | .reset | .add _ => id

end Call

def performAll (calls : List (Call α)) (r : Ring α) : Ring α := calls.foldl (fun r c => c.perform r) r

def addedBy (calls : List (Call α)) : List α := calls.flatMap (·.added)

def editsAt (k : Nat) : Ring α → List (Call α) → α → α
  | _, [] => id
  | r, c :: calls => editsAt k (c.perform r) calls ∘ c.editAt k r

/-! ## One call -/

section Calls

variable {r : Ring α}

theorem turn_lt (h : r.items ≠ []) : r.turn < r.items.length := by
  have hpos : 0 < r.items.length := List.length_pos_iff.2 h
  rw [turn]
  split
  · exact hpos
  · exact Nat.mod_lt _ hpos

theorem exists_next? (h : r.items ≠ []) :
    ∃ x, r.items[r.turn]? = some x ∧ r.next? = some (x, ⟨r.items, some r.turn⟩) := by
  have hturn := List.getElem?_eq_getElem (turn_lt h)
  refine ⟨_, hturn, ?_⟩
  rw [next?_eq h, hturn]
  rfl

theorem next?_eq_none_iff : r.next? = none ↔ r.items = [] := by
  constructor
  · intro hnone
    by_contra h
    obtain ⟨x, -, hnext⟩ := exists_next? h
    cases hnone.symm.trans hnext
  · intro h
    simp [next?, h]

theorem perform_next (h : r.items ≠ []) (edit : α → α) :
    (Call.next edit).perform r = ⟨r.items.modify r.turn edit, some r.turn⟩ := by
  obtain ⟨x, hx, hnext⟩ := exists_next? h
  simp only [Call.perform, hnext, setCurrent]
  rw [List.modify_eq_set_getElem?, hx]
  rfl

theorem perform_next_of_nil (h : r.items = []) (edit : α → α) : (Call.next edit).perform r = r := by
  simp only [Call.perform, next?_eq_none_iff.2 h]

theorem editAt_of_length_le {k : Nat} (h : r.items.length ≤ k) (c : Call α) : c.editAt k r = id := by
  cases c with
  | next edit => exact if_neg fun hk => absurd hk.1 (Nat.not_lt.2 h)
  | reset | add x => rfl

/-- A call puts its elements behind all others and edits the one that it hands out; `l` is what later
calls put in. -/
theorem getElem?_perform (c : Call α) (r : Ring α) (l : List α) (k : Nat) :
    ((c.perform r).items ++ l)[k]? = (r.items ++ (c.added ++ l))[k]?.map (c.editAt k r) := by
  cases c with
  | reset => simp [Call.perform, reset, Call.added, Call.editAt]
  | add x => simp [Call.perform, push, Call.added, Call.editAt]
  | next edit =>
    by_cases h : r.items = []
    · rw [perform_next_of_nil h, editAt_of_length_le (by simp [h])]
      simp [Call.added]
    · have hturn := turn_lt h
      rw [perform_next h]
      by_cases hk : k < r.items.length
      · rw [List.getElem?_append_left (by simpa using hk), List.getElem?_append_left hk,
          List.getElem?_modify]
        by_cases hkt : r.turn = k <;> simp [Call.editAt, hk, hkt]
      · rw [editAt_of_length_le (Nat.not_lt.1 hk)]
        simp [List.getElem?_append, Call.added, hk]

def WithinBounds (r : Ring α) : Prop := ∀ i, r.cursor = some i → i < r.items.length

theorem WithinBounds.perform (h : r.WithinBounds) (c : Call α) : (c.perform r).WithinBounds := by
  intro i hi
  cases c with
  | reset => cases hi
  | add x =>
    have hlt := h i hi
    simp only [Call.perform, push, List.length_append, List.length_singleton]
    omega
  | next edit =>
    by_cases hempty : r.items = []
    · rw [perform_next_of_nil hempty] at hi ⊢
      exact h i hi
    · rw [perform_next hempty] at hi ⊢
      cases hi
      rw [List.length_modify]
      exact turn_lt hempty

end Calls

/-! ## Calls one after another -/

theorem getElem?_performAll (calls : List (Call α)) (r : Ring α) (k : Nat) :
    (performAll calls r).items[k]? = (r.items ++ addedBy calls)[k]?.map (editsAt k r calls) := by
  induction calls generalizing r with
  | nil => simp [performAll, addedBy, editsAt]
  | cons c calls ih =>
    have hrest := ih (c.perform r)
    rw [getElem?_perform, Option.map_map] at hrest
    exact hrest

theorem WithinBounds.performAll {r : Ring α} (h : r.WithinBounds) (calls : List (Call α)) :
    (performAll calls r).WithinBounds := by
  induction calls generalizing r with
  | nil => exact h
  | cons c calls ih => exact ih (h.perform c)

/-! ## Rotating -/

/-- The place behind the cursor, counted on past the end of the ring. -/
def start (r : Ring α) : Nat :=
  match r.cursor with
  | none => 0
  | some i => i + 1

theorem turn_eq_start_mod (r : Ring α) : r.turn = r.start % r.items.length := by
  obtain ⟨items, cursor⟩ := r
  cases cursor with
  | none => exact (Nat.zero_mod _).symm
  | some i => rfl

theorem items_perform_next_ne_nil {r : Ring α} (h : r.items ≠ []) (edit : α → α) :
    ((Call.next edit).perform r).items ≠ [] := by
  rw [perform_next h]
  exact mt (List.modify_eq_nil_iff ..).1 h

theorem start_perform_next {r : Ring α} (h : r.items ≠ []) (edit : α → α) :
    ((Call.next edit).perform r).start = r.start % r.items.length + 1 := by
  rw [perform_next h, start, turn_eq_start_mod]

/-- The ring after elements have been handed out one after another, each with its edit. -/
def rotate (edits : List (α → α)) (r : Ring α) : Ring α := performAll (edits.map .next) r

theorem rotate_cons (edit : α → α) (edits : List (α → α)) (r : Ring α) :
    r.rotate (edit :: edits) = ((Call.next edit).perform r).rotate edits := rfl

theorem length_rotate (edits : List (α → α)) (r : Ring α) :
    (r.rotate edits).items.length = r.items.length := by
  induction edits generalizing r with
  | nil => rfl
  | cons edit edits ih =>
    rw [rotate_cons, ih]
    by_cases h : r.items = []
    · rw [perform_next_of_nil h]
    · rw [perform_next h, List.length_modify]

theorem turn_rotate {r : Ring α} (h : r.items ≠ []) (edits : List (α → α)) :
    (r.rotate edits).turn = (r.start + edits.length) % r.items.length := by
  induction edits generalizing r with
  | nil => exact r.turn_eq_start_mod
  | cons edit edits ih =>
    have hlength := length_rotate [edit] r
    change ((Call.next edit).perform r).items.length = _ at hlength
    rw [rotate_cons, ih (items_perform_next_ne_nil h edit), start_perform_next h, hlength,
      Nat.add_assoc, Nat.mod_add_mod, List.length_cons, Nat.add_comm 1]

/-- Elements that the rotation has not come to are as they were. -/
theorem getElem?_rotate {r : Ring α} {edits : List (α → α)} {k : Nat}
    (hk : r.start + edits.length ≤ k) (hlt : k < r.items.length) :
    (r.rotate edits).items[k]? = r.items[k]? := by
  induction edits generalizing r with
  | nil => rfl
  | cons edit edits ih =>
    rw [List.length_cons] at hk
    have hne : r.items ≠ [] := List.length_pos_iff.1 (Nat.zero_lt_of_lt hlt)
    have hstart : r.start % r.items.length = r.start := Nat.mod_eq_of_lt (by omega)
    have hnext : ((Call.next edit).perform r).start + edits.length ≤ k := by
      rw [start_perform_next hne, hstart]
      omega
    have hlt' : k < ((Call.next edit).perform r).items.length := by
      rwa [perform_next hne, List.length_modify]
    rw [rotate_cons, ih hnext hlt', perform_next hne, turn_eq_start_mod, hstart]
    have hne' : r.start ≠ k := by omega
    simp [hne']

/-- After calls that have handed out one element for each edit, the next one hands out the element in
the place `i`. -/
def HandsOut (r : Ring α) (edits : List (α → α)) (i : Nat) : Prop :=
  ∃ x, (r.rotate edits).items[i]? = some x ∧
    (r.rotate edits).next? = some (x, ⟨(r.rotate edits).items, some i⟩)

theorem handsOut {r : Ring α} (h : r.items ≠ []) (edits : List (α → α)) :
    r.HandsOut edits ((r.start + edits.length) % r.items.length) := by
  have hne : (r.rotate edits).items ≠ [] := by
    rw [← List.length_pos_iff, length_rotate]
    exact List.length_pos_iff.2 h
  rw [← turn_rotate h]
  exact exists_next? hne

section Growing

variable {r : Ring α} (x : α)

theorem handsOut_push (edits : List (α → α)) :
    (r.push x).HandsOut edits ((r.start + edits.length) % (r.items.length + 1)) := by
  have h := handsOut (r := r.push x) (by simp [push]) edits
  simpa [push, start] using h

/-- The rotation comes to the new element as it was put in. -/
theorem next?_push {edits : List (α → α)} (h : r.start + edits.length = r.items.length) :
    ((r.push x).rotate edits).next? =
      some (x, ⟨((r.push x).rotate edits).items, some r.items.length⟩) := by
  obtain ⟨y, hy, hnext⟩ := handsOut_push (r := r) x edits
  rw [h, Nat.mod_eq_of_lt (Nat.lt_succ_self _)] at hy hnext
  have hkeep : ((r.push x).rotate edits).items[r.items.length]? = (r.push x).items[r.items.length]? :=
    getElem?_rotate (Nat.le_of_eq h) (by simp [push])
  have hx : (r.push x).items[r.items.length]? = some x := by simp [push]
  obtain rfl : y = x := by simpa [hkeep, hx] using hy.symm
  exact hnext

end Growing

/-! ## Copies -/

/-- Something done among several rings: a call on the ring in a place, or a copy of it that is put
behind all others. -/
inductive Event (α : Type) where
  | call (ring : Nat) (c : Call α)
  | clone (ring : Nat)

/-- What an event makes of things in places, if a call does `act` to one of them. -/
def Event.run (act : Call α → σ → σ) : Event α → List σ → List σ
  | .call n c, l => l.modify n (act c)
  | .clone n, l => l ++ l[n]?.toList

def runAll (act : Call α → σ → σ) (events : List (Event α)) (l : List σ) : List σ :=
  events.foldl (fun l e => e.run act l) l

theorem Event.run_map {act : Call α → σ → σ} {act' : Call α → τ → τ} {f : σ → τ}
    (h : ∀ c s, f (act c s) = act' c (f s)) (e : Event α) (l : List σ) :
    e.run act' (l.map f) = (e.run act l).map f := by
  cases e with
  | call n c =>
    apply List.ext_getElem?
    intro k
    by_cases hk : n = k <;> simp [run, hk, h, Function.comp_def]
  | clone n => cases hn : l[n]? <;> simp [run, hn]

theorem runAll_map {act : Call α → σ → σ} {act' : Call α → τ → τ} {f : σ → τ}
    (h : ∀ c s, f (act c s) = act' c (f s)) (events : List (Event α)) (l : List σ) :
    runAll act' events (l.map f) = (runAll act events l).map f := by
  induction events generalizing l with
  | nil => rfl
  | cons e events ih =>
    have hrest := ih (e.run act l)
    rw [← e.run_map h] at hrest
    exact hrest

def rings (r : Ring α) (events : List (Event α)) : List (Ring α) := runAll Call.perform events [r]

/-- The calls that each ring has seen, those before it was copied included. -/
def histories (events : List (Event α)) : List (List (Call α)) :=
  runAll (fun c calls => calls ++ [c]) events [[]]

theorem rings_eq (r : Ring α) (events : List (Event α)) :
    r.rings events = (histories events).map fun calls => performAll calls r := by
  have hsnoc (c : Call α) (calls : List (Call α)) :
      performAll (calls ++ [c]) r = c.perform (performAll calls r) := by
    rw [performAll, List.foldl_append]
    rfl
  exact runAll_map (f := fun calls => performAll calls r) hsnoc events [[]]

/-! ## The law -/

/-- What is true of a ring `r` after calls on a new ring of `items`. -/
structure Rotation (items : List α) (calls : List (Call α)) (r : Ring α) : Prop where
  cursor_lt : ∀ i, r.cursor = some i → i < r.items.length
  /-- The elements are those there were and those put in, with the edits each has got in its place. -/
  getElem?_items : ∀ k : Nat,
    r.items[k]? = (items ++ addedBy calls)[k]?.map (editsAt k (ofList items) calls)
  next?_eq_none : r.next? = none ↔ r.items = []
  cursor_of_nil : r.items = [] → ∀ edit, ((Call.next edit).perform r).cursor = none
  handsOut : r.items ≠ [] → ∀ edits,
    r.HandsOut edits ((r.start + edits.length) % r.items.length)
  /-- A new element comes behind all that the rotation still has before it, and then it wraps. -/
  push : ∀ x edits,
    (r.start + edits.length ≤ r.items.length → (r.push x).HandsOut edits (r.start + edits.length)) ∧
      (r.start + edits.length = r.items.length →
        ((r.push x).rotate edits).next?.map (·.1) = some x) ∧
      (r.start + edits.length = r.items.length + 1 → (r.push x).HandsOut edits 0)

theorem rotation_of_withinBounds {items : List α} {calls : List (Call α)}
    (h : (performAll calls (ofList items)).WithinBounds) :
    Rotation items calls (performAll calls (ofList items)) where
  cursor_lt := h
  getElem?_items := getElem?_performAll calls _
  next?_eq_none := next?_eq_none_iff
  cursor_of_nil := by
    intro hnil edit
    rw [perform_next_of_nil hnil]
    cases hcursor : (performAll calls (ofList items)).cursor with
    | none => rfl
    | some i =>
      have hlt := h i hcursor
      simp [hnil] at hlt
  handsOut := Ring.handsOut
  push := by
    intro x edits
    have hpush := handsOut_push (r := performAll calls (ofList items)) x edits
    refine ⟨fun hle => ?_, fun heq => ?_, fun heq => ?_⟩
    · rwa [Nat.mod_eq_of_lt (Nat.lt_succ_of_le hle)] at hpush
    · rw [next?_push x heq]
      rfl
    · rwa [heq, Nat.mod_self] at hpush

/-- Rings that come from one ring of `items` by calls and copies have each seen a history of calls of
their own.  After any history the cursor is unset or on an element, every element is in its place, and
the next ones come round robin, an added one last before the rotation wraps. -/
theorem rotation_law (items : List α) :
    (∀ events, (ofList items).rings events =
      (histories events).map fun calls => performAll calls (ofList items)) ∧
    ∀ calls, Rotation items calls (performAll calls (ofList items)) := by
  have hstart : (ofList items).WithinBounds := fun i hi => by cases hi
  exact ⟨rings_eq _, fun calls => rotation_of_withinBounds (hstart.performAll calls)⟩

example :
    (ofList ["a", "b", "c"]).rings [.call 0 (.next id), .call 0 (.next id), .clone 0,
      .call 1 (.next (· ++ "!")), .call 0 (.add "d")] =
        [⟨["a", "b", "c", "d"], some 1⟩, ⟨["a", "b", "c!"], some 2⟩] := rfl

end GraphTraversal.Ring
