/-! # JSON syntax

The reader checks the grammar and keeps numbers and strings as they are written.  What they denote, and
whether they denote anything, is decided where they are used, so a part of a document that nobody looks
at needs only be well formed.
-/

namespace GraphTraversal.Json

/-- A number as it is written.  The digits are given by their values. -/
structure Numeral where
  negative : Bool
  whole : List Nat
  fraction : List Nat := []
  /-- The exponent: whether it is negative, and its digits. -/
  exponent : Option (Bool × List Nat) := none
deriving DecidableEq

/-- A text as it is written: characters, and code units given by escapes. -/
inductive Piece where
  | char (c : Char)
  | unit (n : Nat)
deriving DecidableEq

inductive Node where
  | null
  | boolean (b : Bool)
  | number (n : Numeral)
  | string (pieces : List Piece)
  | array (items : List Node)
  | object (fields : List (List Piece × Node))
deriving Inhabited

/-! ## Reading -/

def isBlank (c : Char) : Bool := c == ' ' || c == '\n' || c == '\t' || c == '\r'

def skipBlanks (l : List Char) : List Char := l.dropWhile isBlank

def digit? (c : Char) : Option Nat :=
  if '0' ≤ c ∧ c ≤ '9' then some (c.toNat - '0'.toNat) else none

def hexDigit? (c : Char) : Option Nat :=
  if '0' ≤ c ∧ c ≤ '9' then some (c.toNat - '0'.toNat)
  else if 'a' ≤ c ∧ c ≤ 'f' then some (c.toNat - 'a'.toNat + 10)
  else if 'A' ≤ c ∧ c ≤ 'F' then some (c.toNat - 'A'.toNat + 10)
  else none

def digits : List Char → List Nat × List Char
  | [] => ([], [])
  | c :: l =>
    match digit? c with
    | none => ([], c :: l)
    | some d => let (ds, rest) := digits l; (d :: ds, rest)

def exponentPart : List Char → Option (Option (Bool × List Nat) × List Char)
  | c :: l =>
    if c == 'e' || c == 'E' then
      let (negative, l) := match l with
        | '+' :: l => (false, l)
        | '-' :: l => (true, l)
        | l => (false, l)
      match digits l with
      | ([], _) => none
      | (ds, rest) => some (some (negative, ds), rest)
    else some (none, c :: l)
  | [] => some (none, [])

/-- A number: no superfluous zero in front, and digits on either side of a point. -/
def numeral (l : List Char) : Option (Numeral × List Char) := do
  let (negative, l) := match l with
    | '-' :: l => (true, l)
    | l => (false, l)
  let (whole, l) := digits l
  if whole.isEmpty || (1 < whole.length && whole.head? == some 0) then none
  else
    match l with
    | '.' :: l =>
      let (fraction, l) := digits l
      if fraction.isEmpty then none
      else
        let (exponent, l) ← exponentPart l
        some ({ negative, whole, fraction, exponent }, l)
    | l =>
      let (exponent, l) ← exponentPart l
      some ({ negative, whole, exponent }, l)

def shortEscape? : Char → Option Char
  | '"' => some '"'
  | '\\' => some '\\'
  | '/' => some '/'
  | 'b' => some '\x08'
  | 'f' => some '\x0c'
  | 'n' => some '\n'
  | 'r' => some '\r'
  | 't' => some '\t'
  | _ => none

/-- The rest of a text after its opening quote. -/
def pieces : List Char → Option (List Piece × List Char)
  | [] => none
  | '"' :: l => some ([], l)
  | '\\' :: 'u' :: a :: b :: c :: d :: l => do
    let unit := (((← hexDigit? a) * 16 + (← hexDigit? b)) * 16 + (← hexDigit? c)) * 16 +
      (← hexDigit? d)
    let (ps, rest) ← pieces l
    some (.unit unit :: ps, rest)
  | '\\' :: e :: l => do
    let c ← shortEscape? e
    let (ps, rest) ← pieces l
    some (.char c :: ps, rest)
  | c :: l =>
    if c.toNat < 32 || c == '\\' then none
    else do
      let (ps, rest) ← pieces l
      some (.char c :: ps, rest)

mutual

/-- A value at the front, blanks before it skipped.  The bound limits the number of nested calls; the
length of the text is enough. -/
def node : Nat → List Char → Option (Node × List Char)
  | 0, _ => none
  | bound + 1, l =>
    match skipBlanks l with
    | 'n' :: 'u' :: 'l' :: 'l' :: l => some (.null, l)
    | 't' :: 'r' :: 'u' :: 'e' :: l => some (.boolean true, l)
    | 'f' :: 'a' :: 'l' :: 's' :: 'e' :: l => some (.boolean false, l)
    | '"' :: l => do
      let (ps, l) ← pieces l
      some (.string ps, l)
    | '[' :: l =>
      match skipBlanks l with
      | ']' :: l => some (.array [], l)
      | l => do
        let (items, l) ← nodes bound l
        some (.array items, l)
    | '\x7b' :: l =>
      match skipBlanks l with
      | '\x7d' :: l => some (.object [], l)
      | l => do
        let (fields, l) ← fields bound l
        some (.object fields, l)
    | l => do
      let (n, l) ← numeral l
      some (.number n, l)

def nodes : Nat → List Char → Option (List Node × List Char)
  | 0, _ => none
  | bound + 1, l => do
    let (first, l) ← node bound l
    match skipBlanks l with
    | ']' :: l => some ([first], l)
    | ',' :: l => do
      let (rest, l) ← nodes bound l
      some (first :: rest, l)
    | _ => none

def fields : Nat → List Char → Option (List (List Piece × Node) × List Char)
  | 0, _ => none
  | bound + 1, l =>
    match skipBlanks l with
    | '"' :: l => do
      let (key, l) ← pieces l
      match skipBlanks l with
      | ':' :: l => do
        let (value, l) ← node bound l
        match skipBlanks l with
        | '\x7d' :: l => some ([(key, value)], l)
        | ',' :: l => do
          let (rest, l) ← fields bound l
          some ((key, value) :: rest, l)
        | _ => none
      | _ => none
    | _ => none

end

def Node.read? (text : String) : Option Node :=
  let l := text.toList
  match node (l.length + 1) l with
  | some (n, rest) => if (skipBlanks rest).isEmpty then some n else none
  | none => none

end GraphTraversal.Json
