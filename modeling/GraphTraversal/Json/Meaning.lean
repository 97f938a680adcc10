import GraphTraversal.Json.Syntax
import GraphTraversal.Numeric.Binary64

/-! # What JSON denotes

A text denotes a string if its escaped code units pair up as surrogates.  A number without fraction and
exponent denotes an integer if it fits in sixty-four bits, signed or unsigned.  Any other number denotes
the float computed from its leading digits, as many as fit in an unsigned word, by one division or
multiplication with a power of ten; a number too large for a float denotes nothing.
-/

namespace GraphTraversal.Json

/-! ## Texts -/

/-- The characters of a text.  A leading surrogate must be followed by a trailing one. -/
def characters? : List Piece → Option (List Char)
  | [] => some []
  | .char c :: l => (characters? l).map (c :: ·)
  | .unit n :: l =>
    if 0xd800 ≤ n ∧ n < 0xdc00 then
      match l with
      | .unit m :: l =>
        if 0xdc00 ≤ m ∧ m < 0xe000 then
          (characters? l).map (.ofNat (0x10000 + (n - 0xd800) * 0x400 + (m - 0xdc00)) :: ·)
        else none
      | _ => none
    else if 0xdc00 ≤ n ∧ n < 0xe000 then none
    else (characters? l).map (.ofNat n :: ·)

def string? (l : List Piece) : Option String := (characters? l).map String.ofList

/-! ## Numbers -/

inductive Number where
  | integer (n : Int)
  | float (x : Binary64)
deriving DecidableEq

def naturalOf (l : List Nat) : Nat := l.foldl (fun n d => n * 10 + d) 0

/-- Takes digits into a number below `2 ^ 64`, with those that no longer fit. -/
def takeDigits (n : Nat) : List Nat → Nat × List Nat
  | [] => (n, [])
  | d :: l => if n * 10 + d < Nat.pow 2 64 then takeDigits (n * 10 + d) l else (n, d :: l)

/-- The float `significand * 10 ^ power`.  Powers beyond the range of floats are divided out step by
step; `none` if the result is too large. -/
def scale? : Nat → Binary64 → Int → Option Binary64
  | 0, x, _ => some x
  | steps + 1, x, power =>
    if power.natAbs ≤ 308 then
      if 0 ≤ power then
        let y := x.mul (.powerOfTen power.natAbs)
        if y.isInfinite then none else some y
      else some (x.div (.powerOfTen power.natAbs))
    else if x.isZero then some x
    else if 0 ≤ power then none
    else scale? steps (x.div (.powerOfTen 308)) (power + 308)

def floatOf? (negative : Bool) (significand : Nat) (power : Int) : Option Binary64 :=
  (scale? (power.natAbs / 308 + 1) (.ofInt significand) power).map fun x =>
    if negative then x.neg else x

namespace Numeral

def float? (n : Numeral) : Option Binary64 :=
  let (front, late) := takeDigits 0 n.whole
  let (significand, dropped) := takeDigits front n.fraction
  let power : Int := (late.length : Int) - (n.fraction.length - dropped.length : Nat)
  match n.exponent with
  | none => floatOf? n.negative significand power
  | some (negative, ds) =>
    let e := naturalOf ds
    if Nat.pow 2 31 ≤ e then
      -- such an exponent decides alone, unless there is nothing to scale
      if significand ≠ 0 ∧ ¬negative then none else some (.ofParts n.negative 0)
    else
      let clamp (p : Int) : Int := max Int32.minValue.toInt (min p Int32.maxValue.toInt)
      floatOf? n.negative significand (clamp (if negative then power - e else power + e))

/-- What a number denotes; minus zero is a float. -/
def value? (n : Numeral) : Option Number :=
  if n.fraction.isEmpty && n.exponent.isNone then
    let w := naturalOf n.whole
    if n.negative then
      if 0 < w ∧ w ≤ Nat.pow 2 63 then some (.integer (-w)) else n.float?.map .float
    else if w < Nat.pow 2 64 then some (.integer w)
    else n.float?.map .float
  else n.float?.map .float

end Numeral

end GraphTraversal.Json
