import GraphTraversal.Toml.Lexical

/-! # Reading TOML

A document is a sequence of lines: key-value pairs, table headers, comments and blank lines.  Arrays may
spread over several lines, inline tables may not.
-/

namespace GraphTraversal.Toml

/-- How deep arrays and inline tables may nest, and how long a dotted key may be. -/
def maximalDepth : Nat := 79

def boundedKey? (l : List Char) : Option (List String × List Char) :=
  match key? (l.length + 1) l with
  | some (path, l) => if path.length ≤ maximalDepth then some (path, l) else none
  | none => none

def number? (l : List Char) : Option (Scalar × List Char) :=
  match datetime? l with
  | some r => some r
  | none =>
    match float? l with
    | some r => some r
    | none => integer? l

mutual

/-- A value; `bound` limits the number of calls and `depth` the levels of nesting that are left. -/
def value? : Nat → Nat → List Char → Option (Item × List Char)
  | 0, _, _ => none
  | bound + 1, depth, l =>
    match l with
    | '"' :: _ => (string? l).map fun (s, l) => (.scalar (.string s), l)
    | '\'' :: _ => (string? l).map fun (s, l) => (.scalar (.string s), l)
    | '[' :: l =>
      match depth with
      | 0 => none
      | depth + 1 => do
        let l ← skipLines? (l.length + 1) l
        match l with
        | ']' :: l => some (.array [], l)
        | l => do
          let (items, l) ← items? bound depth l
          some (.array items, l)
    | '\x7b' :: l =>
      match depth with
      | 0 => none
      | depth + 1 =>
        match skipBlanks l with
        | '\x7d' :: l => some (.inline {}, l)
        | l => do
          let (pairs, l) ← pairs? bound depth l
          let t ← Table.ofPairs? pairs
          some (.inline t, l)
    | 't' :: 'r' :: 'u' :: 'e' :: l => some (.scalar (.boolean true), l)
    | 'f' :: 'a' :: 'l' :: 's' :: 'e' :: l => some (.scalar (.boolean false), l)
    | l => (number? l).map fun (s, l) => (.scalar s, l)

/-- The items of an array up to its closing bracket; the last may be followed by a comma. -/
def items? : Nat → Nat → List Char → Option (List Item × List Char)
  | 0, _, _ => none
  | bound + 1, depth, l => do
    let (first, l) ← value? bound depth l
    match ← skipLines? (l.length + 1) l with
    | ']' :: l => some ([first], l)
    | ',' :: l => do
      match ← skipLines? (l.length + 1) l with
      | ']' :: l => some ([first], l)
      | l => do
        let (rest, l) ← items? bound depth l
        some (first :: rest, l)
    | _ => none

def pairs? : Nat → Nat → List Char → Option (List (List String × Item) × List Char)
  | 0, _, _ => none
  | bound + 1, depth, l => do
    let (path, l) ← boundedKey? l
    let (item, l) ← value? bound depth (skipBlanks (← exactly? '=' l))
    match skipBlanks l with
    | '\x7d' :: l => some ([(path, item)], l)
    | ',' :: l => do
      let (rest, l) ← pairs? bound depth l
      some ((path, item) :: rest, l)
    | _ => none

end

def lines? : Nat → Draft → List Char → Option Table
  | 0, _, _ => none
  | bound + 1, d, l =>
    match skipBlanks l with
    | [] => d.close?
    | '#' :: l => (endOfLine? ('#' :: l)).bind (lines? bound d)
    | '\n' :: l => lines? bound d l
    | '\r' :: l => (newline? ('\r' :: l)).bind (lines? bound d)
    | '[' :: '[' :: l => do
      let (path, l) ← boundedKey? l
      let l ← exactly? ']' (← exactly? ']' l)
      lines? bound (← d.openArray? path) (← endOfLine? l)
    | '[' :: l => do
      let (path, l) ← boundedKey? l
      let l ← exactly? ']' l
      lines? bound (← d.openTable? path) (← endOfLine? l)
    | l => do
      let (path, l) ← boundedKey? l
      let l := skipBlanks (← exactly? '=' l)
      let (item, l) ← value? (l.length + 1) maximalDepth l
      lines? bound (← d.insert? path item) (← endOfLine? l)

/-- The table that a text describes.  A byte order mark may stand in front. -/
def Table.read? (text : String) : Option Table :=
  let l := match text.toList with
    | '\ufeff' :: l => l
    | l => l
  lines? (l.length + 1) {} l

end GraphTraversal.Toml
