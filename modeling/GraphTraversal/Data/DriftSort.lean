import GraphTraversal.Data.StableSort

/-! # A stable sort for long lists

Short lists are sorted by insertion.  A long one is cut into stretches that are in order already, or are
long enough to be put in order by themselves, and these are merged; the tree of merges follows the places
where the stretches meet.  Stretches that are not in order may be joined unsorted, as long as there is
room to sort them by partition later.

The result is determined if the comparison is that of a total preorder.  If it is not, it depends on which
elements are compared, and the sort may find the comparison in contradiction and give up.
-/

namespace GraphTraversal.DriftSort

variable {α : Type} (before : α → α → Bool)

/-! ## Merging -/

/-- Elements that a merge has taken, and what it has left of either side. -/
structure Merging (α : Type) where
  taken : List α
  left : List α
  right : List α

/-- Takes elements one after another from two lists in order, from the right one only if its first is
strictly before the first of the left one, until there are `n` or a list is at its end. -/
def advance : Nat → List α → List α → Merging α
  | n + 1, x :: l, y :: r =>
    if before y x then
      let rest := advance n (x :: l) r
      { rest with taken := y :: rest.taken }
    else
      let rest := advance n l (y :: r)
      { rest with taken := x :: rest.taken }
  | _, l, r => ⟨[], l, r⟩

def merge (l r : List α) : List α :=
  let merging := advance before (l.length + r.length) l r
  merging.taken ++ merging.left ++ merging.right

def mergeFromEnd (l r : List α) : List α :=
  (merge (fun a b => before b a) r.reverse l.reverse).reverse

/-- Merges from both ends at once, half of the elements from each.  `none` if the two halves do not meet,
because some element was taken twice. -/
def mergeFromBothEnds (l r : List α) : Option (List α) :=
  let front := advance before l.length l r
  let back := advance (fun a b => before b a) l.length r.reverse l.reverse
  let between (whole rest rest' : List α) := rest.take (rest.length + rest'.length - whole.length)
  if l.length ≤ front.left.length + back.right.length ∧
      r.length ≤ front.right.length + back.left.length then
    some (front.taken ++ between l front.left back.right ++ between r front.right back.left ++
      back.taken.reverse)
  else none

/-! ## Few elements -/

/-- Merges two pairs in order by three comparisons. -/
def mergePairs (a b c d : α) : List α :=
  let first := if before c a then c else a
  let last := if before d b then b else d
  -- the other two, in the order in which they stand
  let left := if before c a then a else if before d b then c else b
  let right := if before d b then d else if before c a then b else c
  if before right left then [first, right, left, last] else [first, left, right, last]

def sortFour (w x y z : α) : List α :=
  let (a, b) := if before x w then (x, w) else (w, x)
  let (c, d) := if before z y then (z, y) else (y, z)
  mergePairs before a b c d

def sortHalf (length : Nat) : List α → List α
  | w :: x :: y :: z :: l =>
    if 8 ≤ length then insertEach before (sortFour before w x y z) l
    else stableSort before (w :: x :: y :: z :: l)
  | l => stableSort before l

def smallSort (l : List α) : Option (List α) :=
  if l.length < 2 then some l
  else
    let half := l.length / 2
    mergeFromBothEnds before (sortHalf before l.length (l.take half))
      (sortHalf before l.length (l.drop half))

/-- The length up to which lists are left to `smallSort`. -/
def smallLength : Nat := 32

/-! ## Stretches -/

/-- A stretch of the list, which may be in order already. -/
structure Run (α : Type) where
  elements : List α
  sorted : Bool

def Run.length (r : Run α) : Nat := r.elements.length

/-- The longest part at the front in which every two neighbours are related, and the rest. -/
def splitWhile (related : α → α → Bool) : List α → List α × List α
  | x :: y :: l =>
    if related x y then
      let (run, rest) := splitWhile related (y :: l)
      (x :: run, rest)
    else ([x], y :: l)
  | l => (l, [])

/-- The part at the front that is in order, or that is when turned around. -/
def frontRun (l : List α) : List α × List α :=
  match l with
  | x :: y :: _ =>
    if before y x then
      let (run, rest) := splitWhile (fun a b => before b a) l
      (run.reverse, rest)
    else splitWhile (fun a b => !before b a) l
  | _ => (l, [])

/-- Cuts a list into stretches.  What is in order is a stretch of its own if it is of a good length; what
is not is sorted at once if `eager` says so, or else left for later.  There are at most `fuel` stretches. -/
def cut (good : Nat) (eager : Bool) : (fuel : Nat) → List α → Option (List (Run α))
  | 0, _ | _, [] => some []
  | fuel + 1, l =>
    let (run, rest) := frontRun before l
    if good ≤ run.length then
      (cut good eager fuel rest).map (⟨run, true⟩ :: ·)
    else if eager then do
      let sorted ← smallSort before (l.take smallLength)
      let runs ← cut good eager fuel (l.drop smallLength)
      return ⟨sorted, true⟩ :: runs
    else
      (cut good eager fuel (l.drop good)).map (⟨l.take good, false⟩ :: ·)

def approximateSqrt (n : Nat) : Nat :=
  let shift := (1 + (n ||| 1).log2) / 2
  (1 <<< shift + n >>> shift) / 2

/-- The length from which a stretch in order is worth keeping. -/
def goodLength (n : Nat) : Nat :=
  if n ≤ 4096 then min (n - n / 2) 64 else approximateSqrt n

/-! ## Joining stretches -/

section Joining

variable (room : Nat) (quick : List α → Option (List α))

def Run.settle (r : Run α) : Option (List α) := if r.sorted then some r.elements else quick r.elements

/-- Joins neighbours: stretches that are both unsorted stay so if there is room to sort them together,
others are merged. -/
def join (l r : Run α) : Option (Run α) :=
  if !l.sorted && !r.sorted && decide (l.length + r.length ≤ room) then
    some ⟨l.elements ++ r.elements, false⟩
  else do
    let a ← l.settle quick
    let b ← r.settle quick
    return ⟨if a.length ≤ b.length then merge before a b else mergeFromEnd before a b, true⟩

/-- The depth in the tree of merges of the place where a stretch from `start` to `middle` meets one from
there to `stop`, in a list of `n` elements. -/
def mergeDepth (n start middle stop : Nat) : Nat :=
  let scale := (Nat.pow 2 62 + n - 1) / n
  let differing := (scale * (start + middle)) ^^^ (scale * (middle + stop))
  if differing = 0 then 64 else 63 - differing.log2

/-- Joins a stretch to those before it that meet their successors at `depth` or deeper. -/
def collapse (depth : Nat) : List (Run α × Nat) → Run α → Option (List (Run α × Nat) × Run α)
  | [], last => some ([], last)
  | (run, meeting) :: stack, last =>
    if depth ≤ meeting then do
      let joined ← join before room quick run last
      collapse depth stack joined
    else some ((run, meeting) :: stack, last)

/-- Joins all stretches of a list of `n` elements.  Those before the last one wait on a stack with the
depths at which they meet their successors; `scanned` elements are on it or in the last one. -/
def joinAll (n scanned : Nat) : List (Run α × Nat) → Run α → List (Run α) → Option (Run α)
  | stack, last, [] => (collapse before room quick 0 stack last).map (·.2)
  | stack, last, next :: runs => do
    let depth := mergeDepth n (scanned - last.length) scanned (scanned + next.length)
    let (stack, last) ← collapse before room quick depth stack last
    joinAll n (scanned + next.length) ((last, depth) :: stack) next runs

def drift (eager : Bool) (l : List α) : Option (List α) := do
  match ← cut before (goodLength l.length) eager l.length l with
  | [] => return []
  | first :: runs =>
    let joined ← joinAll before room quick l.length first.length [] first runs
    joined.settle quick

end Joining

/-! ## Partition -/

def beforeAt (l : List α) (i j : Nat) : Bool :=
  match l[i]?, l[j]? with
  | some x, some y => before x y
  | _, _ => false

def median (l : List α) (i j k : Nat) : Nat :=
  let x := beforeAt before l i j
  if x = beforeAt before l i k then
    if beforeAt before l j k = x then j else k
  else i

/-- The place of a median of medians, in three parts of `n` elements. -/
def medianOfParts (l : List α) (n i j k : Nat) : Nat :=
  if n < 8 then median before l i j k
  else
    let part (i : Nat) := medianOfParts l (n / 8) i (i + n / 8 * 4) (i + n / 8 * 7)
    median before l (part i) (part j) (part k)

def choosePivot (l : List α) : Nat :=
  let part := l.length / 8
  if l.length < 64 then median before l 0 (part * 4) (part * 7)
  else medianOfParts before l part 0 (part * 4) (part * 7)

/-- Sorts by partition.  All elements are at or behind the ancestor, if there is one.  A pivot that is not
behind it, or that no element is before, is taken out with all that equal it.  After `limit` partitions the
list is left to `fallback`. -/
def quicksort (fallback : List α → Option (List α)) :
    (limit : Nat) → (ancestor : Option α) → List α → Option (List α)
  | limit, ancestor, l =>
    if l.length ≤ smallLength then smallSort before l
    else
      match limit with
      | 0 => fallback l
      | limit + 1 =>
        let place := choosePivot before l
        match l[place]? with
        | none => fallback l -- there always is an element
        | some pivot =>
          let front := l.take place
          let back := l.drop (place + 1)
          let smaller := (front ++ back).filter (before · pivot)
          if ancestor.any (!before · pivot) || smaller.isEmpty then do
            let equal := front.filter (!before pivot ·) ++ pivot :: back.filter (!before pivot ·)
            let larger ← quicksort fallback limit none ((front ++ back).filter (before pivot ·))
            return equal ++ larger
          else do
            let rest := front.filter (!before · pivot) ++ pivot :: back.filter (!before · pivot)
            let rest ← quicksort fallback limit (some pivot) rest
            let smaller ← quicksort fallback limit ancestor smaller
            return smaller ++ rest

/-! ## The sort -/

/-- How many elements of a size in bytes there is room for beside a list of `n`. -/
def roomFor (size n : Nat) : Nat :=
  max (4096 / size) (max (max (n - n / 2) (min n (8000000 / size))) 48)

/-- The list in order, equal elements in the order in which they stand, for elements of a size in bytes.
`none` if the comparison was found in contradiction, which is none of a total preorder then. -/
def sort (size : Nat) (l : List α) : Option (List α) :=
  if l.length ≤ 20 then some (stableSort before l)
  else
    let room := roomFor size l.length
    -- a list that is cut eagerly has no stretch left for `quick`
    let fallback := drift before room (smallSort before) true
    let quick (l : List α) := quicksort before fallback (2 * (l.length ||| 1).log2) none l
    drift before room quick (decide (l.length ≤ 2 * smallLength)) l

end GraphTraversal.DriftSort
