import GraphTraversal.Value.Basic

/-! # The order of values

Values of different kinds are ordered by kind; numbers form one kind, and an integer is compared with
a float as the float nearest to it.  Lists and maps are compared entry by entry, a shorter one before
its extensions.
-/

namespace GraphTraversal.Value

def rank : Value → Nat
  | .null => 0
  | .boolean _ => 1
  | .integer _ | .float _ => 2
  | .string _ => 3
  | .vertex _ => 4
  | .edge _ => 5
  | .list _ => 6
  | .map _ => 7

mutual

def compare : Value → Value → Ordering
  | .boolean a, .boolean b => Ord.compare a b
  | .integer a, .integer b => Ord.compare a.toInt b.toInt
  | .integer a, .float b => (Binary64.ofInt a.toInt).compare b
  | .float a, .integer b => a.compare (Binary64.ofInt b.toInt)
  | .float a, .float b => a.compare b
  | .string a, .string b => Ord.compare a b
  | .vertex a, .vertex b => Ord.compare a.val b.val
  | .edge a, .edge b => Ord.compare a.val b.val
  | .list a, .list b => compareItems a b
  | .map a, .map b => compareEntries a b
  | a, b => Ord.compare a.rank b.rank

def compareItems : List Value → List Value → Ordering
  | [], [] => .eq
  | [], _ :: _ => .lt
  | _ :: _, [] => .gt
  | a :: as, b :: bs => (a.compare b).then (compareItems as bs)

def compareEntries : List (Value × Value) → List (Value × Value) → Ordering
  | [], [] => .eq
  | [], _ :: _ => .lt
  | _ :: _, [] => .gt
  | (k, a) :: as, (l, b) :: bs => ((k.compare l).then (a.compare b)).then (compareEntries as bs)

end

/-- Whether the first value comes strictly before the second. -/
def before (a b : Value) : Bool := a.compare b == .lt

end GraphTraversal.Value
