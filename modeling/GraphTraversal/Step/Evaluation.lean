import GraphTraversal.Data.DriftSort
import GraphTraversal.Step.Basic
import GraphTraversal.Step.Flow
import GraphTraversal.Value.Order

/-! # How steps act

Each step expands one input into the values it makes of it; a barrier works on all inputs at once.  A
step with children evaluates them by a machine for smaller steps, so a machine is built for every
height, and the height of a step says which machine it needs.  Evaluating a child may move the cursors
of rings below it; the step that comes back has them where they were left.
-/

namespace GraphTraversal

/-! ## Steps without children -/

namespace Graph

/-- The vertices of the graph that are listed, or all if the list is empty.  A vertex is listed by
itself or by the integer that is its id. -/
def listedVertices (g : Graph) (ids : List Value) : List Value :=
  (g.vertexIds.filter fun v => ids.isEmpty || ids.any fun listed =>
    match listed with
    | .integer n => n.toInt = v.val
    | other => other = .vertex v).map .vertex

/-- The values under the listed keys, or all properties if no key is listed. -/
def propertyValues (g : Graph) (element : Value) (keys : List String) : List Value :=
  if keys.isEmpty then (g.properties element).entries.map (·.2)
  else keys.filterMap (g.property? element)

/-- The properties of an element as a map, each value in a list of its own. -/
def valueMap (g : Graph) (element : Value) : Value :=
  .map ((g.properties element).entries.map fun p => (.string p.1, .list [p.2]))

end Graph

namespace Value

/-- The id of an element as an integer; other values have none. -/
def elementId : Value → Except Error (List Value)
  | .vertex ⟨n⟩ | .edge ⟨n⟩ =>
    if n < Nat.pow 2 63 then .ok [.integer (Int64.ofNat n)]
    else .error (.execution (.idTooLarge n))
  | _ => .ok []

/-- The items of a list, the entries of a map one by one, or the value itself. -/
def unfold : Value → List Value
  | .list items => items
  | .map entries => entries.map fun e => .map [e]
  | v => [v]

def column (c : Column) : Value → List Value
  | .map entries => [.list (entries.map fun e => match c with
      | .keys => e.1
      | .values => e.2)]
  | _ => []

end Value

def keepIf (matched : Bool) (v : Value) : List Value := if matched then [v] else []

/-! ## Children -/

namespace Pipeline

def first (m : Machine Step) (p : Pipeline) (v : Value) (g : Graph) :
    Outcome Pipeline (Option Value) :=
  let o := firstResult m p.steps v g
  ⟨o.result, { p with steps := o.state }, o.graph⟩

def all (m : Machine Step) (p : Pipeline) (v : Value) (g : Graph) :
    Outcome Pipeline (List Value) :=
  let o := allResults m p.steps v g
  ⟨o.result, { p with steps := o.state }, o.graph⟩

def allForEach (m : Machine Step) : Pipeline → List Value → Graph → Outcome Pipeline (List Value)
  | p, [], g => ⟨.ok [], p, g⟩
  | p, v :: l, g =>
    let o := p.all m v g
    match o.result with
    | .error e => ⟨.error e, o.state, o.graph⟩
    | .ok found =>
      let rest := allForEach m o.state l o.graph
      { rest with result := rest.result.map (found ++ ·) }

/-- Feeds the results back `n` times; an empty level ends the rounds early. -/
def rounds (m : Machine Step) : Nat → Pipeline → List Value → Graph → Outcome Pipeline (List Value)
  | 0, p, l, g => ⟨.ok l, p, g⟩
  | n + 1, p, l, g =>
    if l.isEmpty then ⟨.ok l, p, g⟩
    else
      let o := p.allForEach m l g
      match o.result with
      | .error e => ⟨.error e, o.state, o.graph⟩
      | .ok next => rounds m n o.state next o.graph

/-- Whether every pipeline yields something for the input; the first that does not ends the test. -/
def allHold (m : Machine Step) : List Pipeline → Value → Graph → Outcome (List Pipeline) Bool
  | [], _, g => ⟨.ok true, [], g⟩
  | p :: l, v, g =>
    let o := p.first m v g
    match o.result with
    | .error e => ⟨.error e, o.state :: l, o.graph⟩
    | .ok none => ⟨.ok false, o.state :: l, o.graph⟩
    | .ok (some _) =>
      let rest := allHold m l v o.graph
      { rest with state := o.state :: rest.state }

end Pipeline

/-! ## Choices -/

namespace Decision

/-- Where an input goes: to a branch by its place among the options, to the fallback, or nowhere. -/
inductive Route where
  | option (index : Nat)
  | fallback
  | nowhere
deriving DecidableEq

def tokens (d : Decision) : List Value := d.options.map (·.1)

def hasFallback (d : Decision) : Bool := d.fallback?.isSome

/-- The route of a token: the first option registered under it, else the fallback. -/
def routeOf (d : Decision) (token : Value) : Route :=
  match d.tokens.findIdx? (· = token) with
  | some index => .option index
  | none => if d.hasFallback then .fallback else .nowhere

def token (m : Machine Step) (d : Decision) (v : Value) (g : Graph) : Outcome Decision Value :=
  match d with
  | .lambda test yes no => ⟨.ok (.boolean (test.test g v)), .lambda test yes no, test.leaves g v⟩
  | .predicate test yes no =>
    let o := test.first m v g
    ⟨o.result.map fun r => .boolean r.isSome, .predicate o.state yes no, o.graph⟩
  | .selector pick options fallback =>
    let o := pick.all m v g
    ⟨match o.result with
      | .error e => .error e
      | .ok [token] => .ok token
      | .ok found => .error (.selection found.length), .selector o.state options fallback, o.graph⟩

def runOption (m : Machine Step) (v : Value) (g : Graph) :
    List (Value × Pipeline) → Nat → Outcome (List (Value × Pipeline)) (List Value)
  | [], _ => ⟨.ok [], [], g⟩
  | (token, p) :: l, 0 =>
    let o := p.all m v g
    ⟨o.result, (token, o.state) :: l, o.graph⟩
  | option :: l, n + 1 =>
    let o := runOption m v g l n
    { o with state := option :: o.state }

def follow (m : Machine Step) (d : Decision) (route : Route) (v : Value) (g : Graph) :
    Outcome Decision (List Value) :=
  match route, d with
  | .option 0, .lambda test yes no =>
    let o := yes.all m v g
    ⟨o.result, .lambda test o.state no, o.graph⟩
  | .option 1, .lambda test yes no =>
    let o := no.all m v g
    ⟨o.result, .lambda test yes o.state, o.graph⟩
  | .option 0, .predicate test yes no =>
    let o := yes.all m v g
    ⟨o.result, .predicate test o.state no, o.graph⟩
  | .option 1, .predicate test yes no =>
    let o := no.all m v g
    ⟨o.result, .predicate test yes o.state, o.graph⟩
  | .option index, .selector pick options fallback =>
    let o := runOption m v g options index
    ⟨o.result, .selector pick o.state fallback, o.graph⟩
  | .fallback, .selector pick options (some p) =>
    let o := p.all m v g
    ⟨o.result, .selector pick options (some o.state), o.graph⟩
  | _, d => ⟨.ok [], d, g⟩

/-- Routes one input and runs its branch.  The phase tells how far the choice came. -/
def evaluate (m : Machine Step) (d : Decision) (v : Value) (g : Graph) :
    Outcome (Decision × Phase) (List Value) :=
  let selected := d.token m v g
  match selected.result with
  | .error e => ⟨.error e, (selected.state, .selecting), selected.graph⟩
  | .ok token =>
    let o := selected.state.follow m (selected.state.routeOf token) v selected.graph
    match o.result with
    | .error e => ⟨.error e, (o.state, .routed), o.graph⟩
    | .ok l => ⟨.ok l, (o.state, .done), o.graph⟩

end Decision

/-! ## Modulated steps -/

namespace Ring

/-- The value under the next pipeline of a ring: its first result, or the input itself if the ring is
empty. -/
def nextValue (m : Machine Step) (r : Ring Pipeline) (v : Value) (g : Graph) :
    Outcome (Ring Pipeline) (Option Value) :=
  match r.next? with
  | none => ⟨.ok (some v), r, g⟩
  | some (p, r) =>
    let o := p.first m v g
    ⟨o.result, r.setCurrent o.state, o.graph⟩

end Ring

def countKey (k : Value) : List (Value × Nat) → List (Value × Nat)
  | [] => [(k, 1)]
  | (k', n) :: l => if k' = k then (k', n + 1) :: l else (k', n) :: countKey k l

/-- Counts the keys of the inputs; the ring starts over for each input. -/
def groupCounts (m : Machine Step) : Ring Pipeline → List Value → List (Value × Nat) → Graph →
    Outcome (Ring Pipeline) (List (Value × Nat))
  | r, [], counts, g => ⟨.ok counts, r, g⟩
  | r, v :: l, counts, g =>
    let o := r.reset.nextValue m v g
    match o.result with
    | .error e => ⟨.error e, o.state, o.graph⟩
    | .ok none => groupCounts m o.state l counts o.graph
    | .ok (some k) => groupCounts m o.state l (countKey k counts) o.graph

/-- The entries of a projection; a name whose pipeline yields nothing is left out. -/
def projectEntries (m : Machine Step) (v : Value) : List String → Ring Pipeline → Graph →
    Outcome (Ring Pipeline) (List (Value × Value))
  | [], r, g => ⟨.ok [], r, g⟩
  | name :: names, r, g =>
    let o := r.nextValue m v g
    match o.result with
    | .error e => ⟨.error e, o.state, o.graph⟩
    | .ok found =>
      let rest := projectEntries m v names o.state o.graph
      { rest with result := rest.result.map fun l =>
          match found with
          | none => l
          | some w => (.string name, w) :: l }

namespace Comparator

/-- The sort keys of one input; a pipeline without a result counts as null. -/
def keysOf (m : Machine Step) (v : Value) : List Comparator → Graph →
    Outcome (List Comparator) (List Value)
  | [], g => ⟨.ok [], [], g⟩
  | .self order :: l, g =>
    let rest := keysOf m v l g
    { rest with result := rest.result.map (v :: ·), state := .self order :: rest.state }
  | .by child :: l, g =>
    let o := child.first m v g
    match o.result with
    | .error e => ⟨.error e, .by o.state :: l, o.graph⟩
    | .ok found =>
      let rest := keysOf m v l o.graph
      { rest with
        result := rest.result.map (found.getD .null :: ·)
        state := .by o.state :: rest.state }

def keyed (m : Machine Step) : List Comparator → List Value → Graph →
    Outcome (List Comparator) (List (List Value × Value))
  | l, [], g => ⟨.ok [], l, g⟩
  | l, v :: inputs, g =>
    let o := keysOf m v l g
    match o.result with
    | .error e => ⟨.error e, o.state, o.graph⟩
    | .ok keys =>
      let rest := keyed m o.state inputs o.graph
      { rest with result := rest.result.map ((keys, v) :: ·) }

/-- Compares lists of sort keys, the first difference deciding. -/
def compareKeys : List SortOrder → List Value → List Value → Ordering
  | o :: orders, a :: as, b :: bs =>
    let first := match o with
      | .ascending => a.compare b
      | .descending => b.compare a
    first.then (compareKeys orders as bs)
  | _, _, _ => .eq

/-- Sorts elements of a size in bytes; `values` says which values an element is compared by. -/
def arrange {α : Type} (before : α → α → Bool) (size : Nat) (values : α → List Value) (l : List α) :
    Except Error (List α) :=
  match DriftSort.sort before size l with
  | some sorted => .ok sorted
  | none => .error (.panic (.disorder (l.flatMap values)))

def arrangeKeyed (orders : List SortOrder) (keyed : List (List Value × Value)) :
    Except Error (List Value) :=
  (arrange (fun a b => compareKeys orders a.1 b.1 == .lt) 56 (·.1) keyed).map (·.map (·.2))

/-- Sorts the inputs, by their own order if there is no comparator. -/
def sort (m : Machine Step) (l : List Comparator) (inputs : List Value) (g : Graph) :
    Outcome (List Comparator) (List Value) :=
  if l.isEmpty then ⟨arrange Value.before 32 ([·]) inputs, l, g⟩
  else
    let o := keyed m l inputs g
    ⟨o.result.bind (arrangeKeyed (l.map (·.sortOrder))), o.state, o.graph⟩

end Comparator

/-! ## Machines -/

namespace Step

def kind : Step → Kind
  | .limit quota => .limiting quota
  | s => if s.isBarrier then .gathering else .expanding

def countMap (counts : List (Value × Nat)) : Value :=
  .map (counts.map fun p => (p.1, .ofSize p.2))

/-- Expands one input, given a machine for the steps of the children. -/
def expandWith (m : Machine Step) (s : Step) (v : Value) (g : Graph) :
    Outcome Step (List Value) :=
  match s with
  | .vertices ids => ⟨.ok (g.listedVertices ids), s, g⟩
  | .adjacent d labels =>
    ⟨match v with
      | .vertex x => .ok ((g.adjacent x d labels).map .vertex)
      | _ => .error (.execution (.expectsVertex "adjacent" v.typeName)), s, g⟩
  | .incident d labels =>
    ⟨match v with
      | .vertex x => .ok ((g.incident x d labels).map .edge)
      | _ => .error (.execution (.expectsVertex "incident" v.typeName)), s, g⟩
  | .endpoint d =>
    ⟨match v with
      | .edge x => .ok ((g.endpoints x d).map .vertex)
      | _ => .error (.execution (.expects "edge" v.typeName)), s, g⟩
  | .hasLabel labels => ⟨.ok (keepIf ((g.label? v).any labels.contains) v), s, g⟩
  | .has key value => ⟨.ok (keepIf (g.property? v key = some value) v), s, g⟩
  | .values keys => ⟨.ok (g.propertyValues v keys), s, g⟩
  | .valueMap => ⟨.ok [g.valueMap v], s, g⟩
  | .label => ⟨.ok ((g.label? v).map .string).toList, s, g⟩
  | .id => ⟨v.elementId, s, g⟩
  | .identity | .limit _ | .order _ => ⟨.ok [v], s, g⟩
  | .count => ⟨.ok [.integer 1], s, g⟩
  | .is value => ⟨.ok (keepIf (v = value) v), s, g⟩
  | .unfold => ⟨.ok v.unfold, s, g⟩
  | .select c => ⟨.ok (v.column c), s, g⟩
  | .filter child injectedBy =>
    let o := child.first m v g
    ⟨o.result.map fun found => keepIf found.isSome v, .filter o.state injectedBy, o.graph⟩
  | .and children =>
    let o := Pipeline.allHold m children v g
    ⟨o.result.map (keepIf · v), .and o.state, o.graph⟩
  | .repeat child times =>
    match times with
    | none => ⟨.error (.execution .repeatWithoutTimes), s, g⟩
    | some n =>
      let o := child.rounds m n [v] g
      ⟨o.result, .repeat o.state times, o.graph⟩
  | .choose decision _ =>
    let o := decision.evaluate m v g
    -- between inputs a choice is unevaluated again
    ⟨o.result, .choose o.state.1 .unevaluated, o.graph⟩
  | .groupCount keys =>
    let o := groupCounts m keys [v] [] g
    ⟨o.result.map fun counts => [countMap counts], .groupCount o.state, o.graph⟩
  | .project names ring =>
    let o := projectEntries m v names ring.reset g
    ⟨o.result.map fun entries => [.map entries], .project names o.state, o.graph⟩
  | .addVertex text =>
    if g.isFull then ⟨.error (.panic (.overflow g.lastId)), s, g⟩
    else
      let (x, g) := g.addVertex text
      ⟨.ok [.vertex x], s, g⟩
  | .property key value =>
    match g.setProperty? v key value with
    | some g => ⟨.ok [v], s, g⟩
    | none => ⟨.error (.execution (.expects "element" v.typeName)), s, g⟩
  | .drop => ⟨.ok [], s, g.remove v⟩

/-- Expands inputs one after another, up to the first error. -/
def expandEach (m : Machine Step) : Step → List Value → Graph → Outcome Step (List Value)
  | s, [], g => ⟨.ok [], s, g⟩
  | s, v :: l, g =>
    let o := s.expandWith m v g
    match o.result with
    | .error e => ⟨.error e, o.state, o.graph⟩
    | .ok found =>
      let rest := expandEach m o.state l o.graph
      { rest with result := rest.result.map (found ++ ·) }

/-- Works on all inputs at once, given a machine for the steps of the children. -/
def releaseWith (m : Machine Step) (s : Step) (inputs : List Value) (g : Graph) :
    Outcome Step (List Value) :=
  match s with
  | .count => ⟨.ok [.ofSize inputs.length], s, g⟩
  | .groupCount keys =>
    let o := groupCounts m keys inputs [] g
    ⟨o.result.map fun counts => [countMap counts], .groupCount o.state, o.graph⟩
  | .order comparators =>
    let o := Comparator.sort m comparators inputs g
    ⟨o.result, .order o.state, o.graph⟩
  | s => s.expandEach m inputs g

/-- The machine for steps up to a height.  At height zero there are no steps, and it does nothing. -/
def machine : Nat → Machine Step
  | 0 => ⟨kind, fun s _ g => ⟨.ok [], s, g⟩, fun s _ g => ⟨.ok [], s, g⟩⟩
  | n + 1 => ⟨kind, expandWith (machine n), releaseWith (machine n)⟩

def expand (s : Step) : Value → Graph → Outcome Step (List Value) := (machine s.height).expand s

def release (s : Step) : List Value → Graph → Outcome Step (List Value) :=
  (machine s.height).release s

end Step

def Pipeline.machine (p : Pipeline) : Machine Step := Step.machine p.height

end GraphTraversal
