import GraphTraversal.Traversal.Basic

/-! # Builder calls as data

A traversal can be written as a list of clauses, one for each builder call; a child is such a list
again.  Building makes the calls from left to right, the children of a call before the call itself, and
stops at the first that is refused.
-/

namespace GraphTraversal

inductive Clause where
  | vertices (ids : List Value)
  | adjacent (direction : Direction) (labels : List Name)
  | outEdges (labels : List Name)
  | inEdges (labels : List Name)
  | tail
  | head
  | hasLabel (labels : List Name)
  | has (key : String) (value : Value)
  | values (keys : List Name)
  | valueMap
  | label
  | id
  | identity
  | count
  | is (value : Value)
  | limit (quota : Nat)
  | unfold
  | select (column : Column)
  | filter (child : List Clause)
  | and (children : List (List Clause))
  | repeat (child : List Clause)
  | times (n : Nat)
  | choose (pick : List Clause)
  | chooseIf (test yes no : List Clause)
  | chooseLambda (test : Lambda) (yes no : List Clause)
  | option (token : OptionToken) (branch : List Clause)
  | groupCount
  | project (names : List Name)
  | order
  | byTraversal (child : List Clause)
  | byOrder (order : SortOrder)
  | addVertex (label : String)
  | property (key : String) (value : Value)
  | drop

mutual

def Clause.extend (t : Traversal) : Clause → Except Error Traversal
  | .vertices ids => .ok (t.vertices ids)
  | .adjacent d labels => .ok (t.adjacent d labels)
  | .outEdges labels => .ok (t.incident .outward labels)
  | .inEdges labels => .ok (t.incident .inward labels)
  | .tail => .ok (t.endpoint .outward)
  | .head => .ok (t.endpoint .inward)
  | .hasLabel labels => .ok (t.hasLabel labels)
  | .has key value => .ok (t.has key value)
  | .values keys => .ok (t.values keys)
  | .valueMap => .ok t.valueMap
  | .label => .ok t.label
  | .id => .ok t.id
  | .identity => .ok t.identity
  | .count => .ok t.count
  | .is value => .ok (t.is value)
  | .limit quota => .ok (t.limit quota)
  | .unfold => .ok t.unfold
  | .select c => .ok (t.select c)
  | .filter child => (Clause.extendAll .start child).map t.filter
  | .and children => (Clause.buildEach children).map t.and
  | .repeat child => (Clause.extendAll .start child).map t.repeating
  | .times n => t.times n
  | .choose pick => (Clause.extendAll .start pick).map t.choose
  | .chooseIf test yes no => do
    let test ← Clause.extendAll .start test
    let yes ← Clause.extendAll .start yes
    let no ← Clause.extendAll .start no
    return t.chooseIf test yes no
  | .chooseLambda test yes no => do
    let yes ← Clause.extendAll .start yes
    let no ← Clause.extendAll .start no
    return t.chooseLambda test yes no
  | .option token branch => do
    let branch ← Clause.extendAll .start branch
    t.option token branch
  | .groupCount => .ok t.groupCount
  | .project names => .ok (t.project names)
  | .order => .ok t.order
  | .byTraversal child => do
    let child ← Clause.extendAll .start child
    t.byTraversal child
  | .byOrder o => t.byOrder o
  | .addVertex text => .ok (t.addVertex text)
  | .property key value => .ok (t.property key value)
  | .drop => .ok t.drop

def Clause.extendAll (t : Traversal) : List Clause → Except Error Traversal
  | [] => .ok t
  | c :: l => do
    let t ← c.extend t
    Clause.extendAll t l

def Clause.buildEach : List (List Clause) → Except Error (List Traversal)
  | [] => .ok []
  | clauses :: l => do
    let t ← Clause.extendAll .start clauses
    let rest ← Clause.buildEach l
    return t :: rest

end

namespace Traversal

def extend (t : Traversal) (clauses : List Clause) : Except Error Traversal :=
  Clause.extendAll t clauses

def ofClauses (clauses : List Clause) : Except Error Traversal := start.extend clauses

end Traversal

end GraphTraversal
