import GraphTraversal.Json.Syntax
import GraphTraversal.Numeric.Binary64
import GraphTraversal.Toml.Table

/-! # Lexical parts of TOML

Blanks, comments, strings, keys, numbers and times.  Every reader takes the characters from where it
starts and returns what it read together with those that follow.
-/

namespace GraphTraversal.Toml

/-! ## Blanks and comments -/

def isBlank (c : Char) : Bool := c == ' ' || c == '\t'

def skipBlanks (l : List Char) : List Char := l.dropWhile isBlank

def isCommentChar (c : Char) : Bool :=
  c == '\t' || (32 ≤ c.toNat && c.toNat ≠ 127)

def skipComment (l : List Char) : List Char :=
  match l with
  | '#' :: l => l.dropWhile isCommentChar
  | l => l

def newline? : List Char → Option (List Char)
  | '\n' :: l => some l
  | '\r' :: '\n' :: l => some l
  | _ => none

/-- Skips blanks and line breaks.  A carriage return without its line feed breaks no line and stays. -/
def skipBlanksAndBreaks : List Char → List Char
  | ' ' :: l => skipBlanksAndBreaks l
  | '\t' :: l => skipBlanksAndBreaks l
  | '\n' :: l => skipBlanksAndBreaks l
  | '\r' :: '\n' :: l => skipBlanksAndBreaks l
  | l => l

/-- Skips what may follow on a line: blanks, a comment, and the line break or the end of the text. -/
def endOfLine? (l : List Char) : Option (List Char) :=
  match skipComment (skipBlanks l) with
  | [] => some []
  | l => newline? l

/-- Skips blanks, comments and line breaks; the bound limits the number of lines.  A comment must be
followed by a line break. -/
def skipLines? : Nat → List Char → Option (List Char)
  | 0, _ => none
  | bound + 1, l =>
    match skipBlanks l with
    | '#' :: l => (newline? (skipComment ('#' :: l))).bind (skipLines? bound)
    | '\n' :: l => skipLines? bound l
    | '\r' :: l => (newline? ('\r' :: l)).bind (skipLines? bound)
    | l => some l

/-! ## Strings -/

def scalar? (n : Nat) : Option Char :=
  if h : n.isValidChar then some (Char.ofNatAux n h) else none

def hexadecimal? (l : List Char) : Option Nat :=
  l.foldlM (fun n c => (Json.hexDigit? c).map (n * 16 + ·)) 0

def shortEscape? : Char → Option Char
  | 'b' => some '\x08'
  | 't' => some '\t'
  | 'n' => some '\n'
  | 'f' => some '\x0c'
  | 'r' => some '\r'
  | '"' => some '"'
  | '\\' => some '\\'
  | _ => none

def escape? : List Char → Option (Char × List Char)
  | 'u' :: l =>
    if l.length < 4 then none
    else ((hexadecimal? (l.take 4)).bind scalar?).map (·, l.drop 4)
  | 'U' :: l =>
    if l.length < 8 then none
    else ((hexadecimal? (l.take 8)).bind scalar?).map (·, l.drop 8)
  | c :: l => (shortEscape? c).map (·, l)
  | [] => none

def isBasicChar (c : Char) : Bool := isCommentChar c && c ≠ '"' && c ≠ '\\'

def isLiteralChar (c : Char) : Bool := isCommentChar c && c ≠ '\''

def basicString? : Nat → List Char → Option (List Char × List Char)
  | 0, _ => none
  | _, [] => none
  | _ + 1, '"' :: l => some ([], l)
  | bound + 1, '\\' :: l => do
    let (c, l) ← escape? l
    let (rest, l) ← basicString? bound l
    some (c :: rest, l)
  | bound + 1, c :: l =>
    if isBasicChar c then (basicString? bound l).map fun (rest, l) => (c :: rest, l) else none

def literalString? (l : List Char) : Option (List Char × List Char) :=
  match l.dropWhile isLiteralChar with
  | '\'' :: rest => some (l.takeWhile isLiteralChar, rest)
  | _ => none

/-- The end of a string in triple quotes, where three to five quotes stand; the first ones over three
belong to the string. -/
def closingQuotes? (quote : Char) (l : List Char) : Option (List Char × List Char) :=
  let n := (l.takeWhile (· == quote)).length
  if 3 ≤ n ∧ n ≤ 5 then some (List.replicate (n - 3) quote, l.drop n) else none

/-- The rest of a string in triple double quotes.  A backslash at the end of a line joins it to the next
text. -/
def basicText? : Nat → List Char → Option (List Char × List Char)
  | 0, _ => none
  | _, [] => none
  | bound + 1, '\\' :: l =>
    match newline? (skipBlanks l) with
    | some l => basicText? bound (skipBlanksAndBreaks l)
    | none => do
      let (c, l) ← escape? l
      let (rest, l) ← basicText? bound l
      some (c :: rest, l)
  | bound + 1, '"' :: l =>
    if l.take 2 == ['"', '"'] then closingQuotes? '"' ('"' :: l)
    else (basicText? bound l).map fun (rest, l) => ('"' :: rest, l)
  | bound + 1, c :: l =>
    match newline? (c :: l) with
    | some l => (basicText? bound l).map fun (rest, l) => ('\n' :: rest, l)
    | none =>
      if isBasicChar c then (basicText? bound l).map fun (rest, l) => (c :: rest, l) else none

def literalText? : Nat → List Char → Option (List Char × List Char)
  | 0, _ => none
  | _, [] => none
  | bound + 1, '\'' :: l =>
    if l.take 2 == ['\'', '\''] then closingQuotes? '\'' ('\'' :: l)
    else (literalText? bound l).map fun (rest, l) => ('\'' :: rest, l)
  | bound + 1, c :: l =>
    match newline? (c :: l) with
    | some l => (literalText? bound l).map fun (rest, l) => ('\n' :: rest, l)
    | none =>
      if isLiteralChar c then (literalText? bound l).map fun (rest, l) => (c :: rest, l) else none

def string? (l : List Char) : Option (String × List Char) :=
  let bound := l.length + 1
  let body := match l with
    | '"' :: '"' :: '"' :: l => basicText? bound ((newline? l).getD l)
    | '"' :: l => basicString? bound l
    | '\'' :: '\'' :: '\'' :: l => literalText? bound ((newline? l).getD l)
    | '\'' :: l => literalString? l
    | _ => none
  body.map fun (s, l) => (String.ofList s, l)

/-! ## Keys -/

def isBareKeyChar (c : Char) : Bool := c.isAlphanum || c == '-' || c == '_'

def simpleKey? (l : List Char) : Option (String × List Char) :=
  match l with
  | '"' :: rest => (basicString? (l.length + 1) rest).map fun (s, l) => (String.ofList s, l)
  | '\'' :: rest => (literalString? rest).map fun (s, l) => (String.ofList s, l)
  | l =>
    match l.takeWhile isBareKeyChar with
    | [] => none
    | s => some (String.ofList s, l.dropWhile isBareKeyChar)

/-- A key with dots, blanks around each part; the bound limits the number of parts. -/
def key? : Nat → List Char → Option (List String × List Char)
  | 0, _ => none
  | bound + 1, l => do
    let (first, l) ← simpleKey? (skipBlanks l)
    match skipBlanks l with
    | '.' :: l => do
      let (rest, l) ← key? bound l
      some (first :: rest, l)
    | l => some ([first], l)

/-! ## Numbers -/

/-- Digits with single underscores between them: the characters at the front, less the underscores. -/
def digitRun? (isDigit : Char → Bool) : List Char → Option (List Char × List Char)
  | c :: '_' :: d :: l =>
    if isDigit c && isDigit d then
      (digitRun? isDigit (d :: l)).map fun (rest, l) => (c :: rest, l)
    else if isDigit c then none
    else none
  | c :: l =>
    if isDigit c then
      match l with
      | '_' :: _ => none
      | d :: _ =>
        if isDigit d then (digitRun? isDigit l).map fun (rest, l) => (c :: rest, l)
        else some ([c], l)
      | [] => some ([c], [])
    else none
  | [] => none

def inBase (base : Nat) (l : List Char) : Nat :=
  l.foldl (fun n c => n * base + (Json.hexDigit? c).getD 0) 0

def sign : List Char → Option Bool × List Char
  | '+' :: l => (some false, l)
  | '-' :: l => (some true, l)
  | l => (none, l)

/-- Decimal digits of a whole number: a lone zero, or digits that do not begin with zero. -/
def wholeDigits? : List Char → Option (List Char × List Char)
  | '0' :: l => some (['0'], l)
  | l => digitRun? Char.isDigit l

def integer? (l : List Char) : Option (Scalar × List Char) :=
  let unsigned (base : Nat) (isDigit : Char → Bool) (l : List Char) : Option (Scalar × List Char) :=
    (digitRun? isDigit l).bind fun (ds, l) =>
      if inBase base ds < Nat.pow 2 63 then some (.integer (inBase base ds), l) else none
  match l with
  | '0' :: 'x' :: l => unsigned 16 (fun c => (Json.hexDigit? c).isSome) l
  | '0' :: 'o' :: l => unsigned 8 (fun c => '0' ≤ c && c ≤ '7') l
  | '0' :: 'b' :: l => unsigned 2 (fun c => c == '0' || c == '1') l
  | l => do
    let (minus, l) := sign l
    let (ds, l) ← wholeDigits? l
    let n : Int := if minus == some true then -(inBase 10 ds : Int) else inBase 10 ds
    if Int64.minValue.toInt ≤ n ∧ n ≤ Int64.maxValue.toInt then some (.integer n, l) else none

def exponent? : List Char → Option (Int × List Char)
  | c :: l =>
    if c == 'e' || c == 'E' then do
      let (minus, l) := sign l
      let (ds, l) ← digitRun? Char.isDigit l
      some (if minus == some true then -(inBase 10 ds : Int) else inBase 10 ds, l)
    else none
  | [] => none

/-- Whether digits, taken times a power of ten, exceed every float. -/
def overflows (digits : List Char) (power : Int) : Bool :=
  let n := inBase 10 digits
  let size : Int := (Nat.toDigits 10 n).length + power
  if n = 0 || size < 0 then false
  else if 400 < size then true
  else
    Binary64.nearestMagnitude (n * Nat.pow 10 power.toNat) (Nat.pow 10 (-power).toNat)
      = Binary64.infiniteMagnitude

/-- A float: a whole number with a fraction, an exponent or both, or one of the special names.  A number
too large for a float is refused, but only a positive one. -/
def float? (l : List Char) : Option (Scalar × List Char) :=
  let (minus, unsigned) := sign l
  match unsigned with
  | 'i' :: 'n' :: 'f' :: l => some (.float, l)
  | 'n' :: 'a' :: 'n' :: l => some (.float, l)
  | _ => do
    let (whole, l) ← wholeDigits? unsigned
    let finish (digits : List Char) (power : Int) (l : List Char) : Option (Scalar × List Char) :=
      if minus ≠ some true && overflows digits power then none else some (.float, l)
    match l with
    | '.' :: l => do
      let (fraction, l) ← digitRun? Char.isDigit l
      match exponent? l with
      | some (e, l) => finish (whole ++ fraction) (e - fraction.length) l
      | none => finish (whole ++ fraction) (-fraction.length) l
    | l => do
      let (e, l) ← exponent? l
      finish whole e l

/-! ## Times -/

def fixedNumber? (count low high : Nat) (l : List Char) : Option (Nat × List Char) :=
  let ds := l.take count
  if ds.length = count && ds.all Char.isDigit && low ≤ inBase 10 ds && inBase 10 ds ≤ high then
    some (inBase 10 ds, l.drop count)
  else none

def exactly? (c : Char) : List Char → Option (List Char)
  | d :: l => if c == d then some l else none
  | [] => none

def daysIn (year month : Nat) : Nat :=
  if month = 2 then
    if year % 4 = 0 ∧ (year % 100 ≠ 0 ∨ year % 400 = 0) then 29 else 28
  else if month = 4 ∨ month = 6 ∨ month = 9 ∨ month = 11 then 30
  else 31

def date? (l : List Char) : Option (List Char) := do
  let (year, l) ← fixedNumber? 4 0 9999 l
  let (month, l) ← fixedNumber? 2 1 12 (← exactly? '-' l)
  let (_, l) ← fixedNumber? 2 1 (daysIn year month) (← exactly? '-' l)
  some l

/-- Skips a time of day; a leap second may stand at the end of any minute. -/
def time? (l : List Char) : Option (List Char) := do
  let (_, l) ← fixedNumber? 2 0 23 l
  let (_, l) ← fixedNumber? 2 0 59 (← exactly? ':' l)
  let (_, l) ← fixedNumber? 2 0 60 (← exactly? ':' l)
  match l with
  | '.' :: c :: rest => if c.isDigit then some (rest.dropWhile Char.isDigit) else some l
  | l => some l

def skipOffset (l : List Char) : List Char :=
  let shifted (rest : List Char) : Option (List Char) := do
    let (_, rest) ← fixedNumber? 2 0 23 rest
    let (_, rest) ← fixedNumber? 2 0 59 (← exactly? ':' rest)
    some rest
  match l with
  | 'Z' :: l => l
  | 'z' :: l => l
  | '+' :: rest => (shifted rest).getD l
  | '-' :: rest => (shifted rest).getD l
  | l => l

/-- A date, a time of day, or both with or without an offset. -/
def datetime? (l : List Char) : Option (Scalar × List Char) :=
  match date? l with
  | some rest =>
    let after := match rest with
      | c :: more =>
        if c == 'T' || c == 't' || c == ' ' then
          match time? more with
          | some more => skipOffset more
          | none => rest
        else rest
      | [] => []
    some (.datetime, after)
  | none => (time? l).map (.datetime, ·)

end GraphTraversal.Toml
