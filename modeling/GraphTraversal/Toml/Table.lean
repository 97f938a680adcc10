/-! # TOML tables

A table remembers how it came about, since that decides what may still be added: by a header of its
own, only as part of a longer path (implicit), or by a dotted key.  The operations fail where the
format forbids to define something a second time.
-/

namespace GraphTraversal.Toml

inductive Scalar where
  | string (s : String)
  | boolean (b : Bool)
  | integer (n : Int)
  | float
  | datetime
deriving DecidableEq

mutual

inductive Item where
  | scalar (s : Scalar)
  | array (items : List Item)
  | inline (t : Table)
  | table (t : Table)
  /-- The tables made by double-bracket headers, the latest first. -/
  | tables (l : List Table)

structure Table where
  entries : List (String × Item) := []
  implicit : Bool := false
  dotted : Bool := false

end

instance : Inhabited Table := ⟨{}⟩

namespace Table

def get? (t : Table) (key : String) : Option Item :=
  (t.entries.find? fun p => p.1 = key).map (·.2)

def erase (t : Table) (key : String) : Table :=
  { t with entries := t.entries.filter fun p => p.1 ≠ key }

def set (t : Table) (key : String) (item : Item) : Table :=
  { t with entries := (t.erase key).entries ++ [(key, item)] }

/-- Changes the table at the end of a path.  Missing tables come into being as implicit ones.  A path
goes through the latest table of an array of tables, and never through a value.  A dotted path does not
go through a table that has a header of its own. -/
def change? (dotted : Bool) (f : Table → Option Table) : List String → Table → Option Table
  | [], t => f t
  | key :: path, t =>
    match t.get? key with
    | none => do
      let child ← change? dotted f path { implicit := true, dotted }
      some (t.set key (.table child))
    | some (.table child) =>
      if dotted && !child.implicit then none
      else do
        let child ← change? dotted f path child
        some (t.set key (.table child))
    | some (.tables (child :: older)) => do
      let child ← change? dotted f path child
      some (t.set key (.tables (child :: older)))
    | some _ => none

def changeInline? (dotted : Bool) (f : Table → Option Table) : List String → Table → Option Table
  | [], t => f t
  | key :: path, t =>
    match t.get? key with
    | none => do
      let child ← changeInline? dotted f path { implicit := dotted, dotted }
      some (t.set key (.inline child))
    | some (.inline child) =>
      if dotted && !child.implicit then none
      else do
        let child ← changeInline? dotted f path child
        some (t.set key (.inline child))
    | some _ => none

/-- Defines a key that was not defined before.  A key path with dots must end in a table made by dots,
and a plain key in one that was not. -/
def define? (plain : Bool) (key : String) (item : Item) (t : Table) : Option Table :=
  if t.dotted == plain then none
  else if (t.get? key).isSome then none
  else some (t.set key item)

def insert? (t : Table) (path : List String) (item : Item) : Option Table :=
  match path.getLast? with
  | none => none
  | some key => t.change? true (define? (path.length = 1) key item) path.dropLast

def ofPairs? (pairs : List (List String × Item)) : Option Table :=
  pairs.foldlM (fun t (path, item) =>
    match path.getLast? with
    | none => none
    | some key =>
      t.changeInline? (1 < path.length) (define? (path.length = 1) key item) path.dropLast) {}

end Table

/-! ## Documents -/

/-- A document being put together: the finished part, and the table whose header came last. -/
structure Draft where
  root : Table := {}
  current : Table := {}
  path : List String := []
  inArray : Bool := false

namespace Draft

def close? (d : Draft) : Option Table :=
  match d.path.getLast? with
  | none => some d.current
  | some key =>
    d.root.change? false (fun parent =>
      match d.inArray, parent.get? key with
      | true, none => some (parent.set key (.tables [d.current]))
      | true, some (.tables l) => some (parent.set key (.tables (d.current :: l)))
      | true, some _ => none
      | false, none => some (parent.set key (.table d.current))
      | false, some (.table t) =>
        if t.implicit then some (parent.set key (.table d.current)) else none
      | false, some _ => none) d.path.dropLast

def insert? (d : Draft) (path : List String) (item : Item) : Option Draft :=
  (d.current.insert? path item).map fun t => { d with current := t }

/-- Opens the table of a header.  A table that exists only implicitly is taken up again. -/
def openTable? (d : Draft) (path : List String) : Option Draft := do
  let key ← path.getLast?
  let root ← d.close?
  let found := lookup? root path
  match found with
  | some (.table t) => if t.implicit && !t.dotted then pure () else none
  | some _ => none
  | none => pure ()
  let current : Table := match found with
    | some (.table t) => { t with implicit := false, dotted := false }
    | _ => {}
  let root ← root.change? false (fun parent => some (parent.erase key)) path.dropLast
  some { root, current, path }
where
  /-- What stands at the end of a path. -/
  lookup? (t : Table) : List String → Option Item
    | [] => none
    | [key] => t.get? key
    | key :: path =>
      match t.get? key with
      | some (.table child) => lookup? child path
      | some (.tables (child :: _)) => lookup? child path
      | _ => none

def openArray? (d : Draft) (path : List String) : Option Draft := do
  let key ← path.getLast?
  let root ← d.close?
  let root ← root.change? false (fun parent =>
    match parent.get? key with
    | none => some (parent.set key (.tables []))
    | some (.tables _) => some parent
    | some _ => none) path.dropLast
  some { root, current := {}, path, inArray := true }

end Draft

end GraphTraversal.Toml
