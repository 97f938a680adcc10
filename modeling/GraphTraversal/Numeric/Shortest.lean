import GraphTraversal.Numeric.Binary64

/-! # Shortest decimal text of a float

The text has the fewest digits that read back as the same float and, among those, the digits nearest
to it; of two equally near ones the larger.  It is positional, whatever the exponent.
-/

namespace GraphTraversal

/-- The natural `coefficient` times ten to the `power`. -/
structure Decimal where
  coefficient : Nat
  power : Int
deriving DecidableEq

namespace Decimal

/-- Moves the zeros at the end of the coefficient into the power, at most `bound` of them. -/
def stripZeros : Nat → Decimal → Decimal
  | 0, d => d
  | bound + 1, d =>
    if d.coefficient % 10 = 0 ∧ d.coefficient ≠ 0 then
      stripZeros bound ⟨d.coefficient / 10, d.power + 1⟩
    else d

/-- Positional text: no exponent, and no point for a whole number. -/
def text (d : Decimal) : String :=
  let digits := (Nat.toDigits 10 d.coefficient)
  let places := (-d.power).toNat
  if places = 0 then String.ofList (digits ++ List.replicate d.power.toNat '0')
  else
    let padded := List.replicate (places + 1 - digits.length) '0' ++ digits
    String.ofList (padded.take (padded.length - places) ++ '.' :: padded.drop (padded.length - places))

end Decimal

namespace Binary64

/-- How many powers of ten a fraction below one lacks to reach one, searched up to `bound`. -/
def shortfall : Nat → Nat → Nat → Nat
  | 0, _, _ => 0
  | bound + 1, num, den => if den ≤ num then 0 else shortfall bound (num * 10) den + 1

/-- The power `p` with `10 ^ (p - 1) ≤ num / den < 10 ^ p`, for a positive fraction within the range
of floats. -/
def decimalSize (num den : Nat) : Int :=
  if den ≤ num then (Nat.toDigits 10 (num / den)).length
  else 1 - (shortfall 400 num den : Int)

/-- The two multiples of `10 ^ power` around the float, if they read back as it; the nearer one
wins.  With `power = p - n` they have `n` digits. -/
def onGrid? (x : Binary64) (power : Int) : Option Decimal :=
  let up := Nat.pow 2 x.exponent.toNat * Nat.pow 10 (-power).toNat
  let num := x.significand * up
  let den := Nat.pow 2 (-x.exponent).toNat * Nat.pow 10 power.toNat
  let below := num / den
  let gapBelow := num - below * den
  let gapAbove := (below + 1) * den - num
  -- the gap to the next smaller float is half as wide at a power of two
  let narrow := x.magnitude % Nat.pow 2 52 = 0 ∧ Nat.pow 2 53 ≤ x.magnitude
  let reaches (distance weight : Nat) : Bool :=
    if x.significand % 2 = 0 then weight * distance ≤ up else weight * distance < up
  let belowReads := reaches gapBelow (if narrow then 4 else 2)
  let aboveReads := reaches gapAbove 2
  if belowReads && (!aboveReads || gapBelow < gapAbove) then some ⟨below, power⟩
  else if aboveReads then some ⟨below + 1, power⟩
  else none

/-- The first grid, from coarse to fine, on which a decimal reads back as the float. -/
def shortest (x : Binary64) : Decimal :=
  let size := decimalSize x.fraction.1 x.fraction.2
  let found := (List.range 17).findSome? fun n : Nat => x.onGrid? (size - 1 - n)
  (found.getD ⟨x.significand, 0⟩).stripZeros 400

def text (x : Binary64) : String :=
  if x.isNaN then "NaN"
  else
    let body := if x.isInfinite then "inf" else if x.isZero then "0" else x.shortest.text
    if x.negative then "-" ++ body else body

end Binary64

end GraphTraversal
