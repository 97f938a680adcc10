/-! # Sixty-four-bit binary floating point

A float is its bit pattern: sign, eleven bits of exponent, fifty-two bits of fraction.  All arithmetic
here is exact arithmetic on naturals followed by one rounding to the nearest pattern, a tie going to
the even one, so nothing depends on the host's floating point unit.
-/

namespace GraphTraversal

/-- A float, kept as its bit pattern.  Two floats are equal when their patterns are. -/
structure Binary64 where
  bits : UInt64
deriving DecidableEq

namespace Binary64

def magnitude (x : Binary64) : Nat := x.bits.toNat % Nat.pow 2 63

def negative (x : Binary64) : Bool := Nat.pow 2 63 ≤ x.bits.toNat

def ofParts (negative : Bool) (magnitude : Nat) : Binary64 :=
  ⟨UInt64.ofNat (if negative then magnitude + Nat.pow 2 63 else magnitude)⟩

/-- The magnitude pattern of infinity; every pattern above it is a NaN. -/
def infiniteMagnitude : Nat := 2047 * Nat.pow 2 52

def isNaN (x : Binary64) : Bool := infiniteMagnitude < x.magnitude

def isInfinite (x : Binary64) : Bool := x.magnitude = infiniteMagnitude

def isZero (x : Binary64) : Bool := x.magnitude = 0

/-- A finite float is `significand * 2 ^ exponent` up to its sign. -/
def significand (x : Binary64) : Nat :=
  if x.magnitude / Nat.pow 2 52 = 0 then x.magnitude
  else Nat.pow 2 52 + x.magnitude % Nat.pow 2 52

def exponent (x : Binary64) : Int :=
  if x.magnitude / Nat.pow 2 52 = 0 then -1074 else (x.magnitude / Nat.pow 2 52 : Nat) - 1075

/-- The quotient `num / den` rounded to the nearest natural, a tie to the even one. -/
def roundQuotient (num den : Nat) : Nat :=
  let q := num / den
  let r := num % den
  if 2 * r < den then q
  else if den < 2 * r then q + 1
  else if q % 2 = 0 then q else q + 1

/-- The magnitude pattern nearest to `num / den`.  The unit `2 ^ e` of the last place is chosen so
that the rounded significand has fifty-three bits, or fewer at the bottom of the range; then
significand and biased exponent add up to the pattern, also when rounding carries. -/
def nearestMagnitude (num den : Nat) : Nat :=
  if num = 0 then 0
  else
    let scaled (e : Int) : Nat × Nat := (num * Nat.pow 2 (-e).toNat, den * Nat.pow 2 e.toNat)
    let guess : Int := (num.log2 : Int) - den.log2 - 52
    let tight := (scaled guess).1 / (scaled guess).2 < Nat.pow 2 52
    let e := max (-1074) (if tight then guess - 1 else guess)
    let pattern := (e + 1074).toNat * Nat.pow 2 52 + roundQuotient (scaled e).1 (scaled e).2
    min pattern infiniteMagnitude

def ofInt (n : Int) : Binary64 := ofParts (n < 0) (nearestMagnitude n.natAbs 1)

def powerOfTen (k : Nat) : Binary64 := ofParts false (nearestMagnitude (Nat.pow 10 k) 1)

/-- The exact value of a finite float's magnitude, as a fraction. -/
def fraction (x : Binary64) : Nat × Nat :=
  (x.significand * Nat.pow 2 x.exponent.toNat, Nat.pow 2 (-x.exponent).toNat)

/-- The product of two finite floats, rounded once. -/
def mul (x y : Binary64) : Binary64 :=
  ofParts (x.negative != y.negative)
    (nearestMagnitude (x.fraction.1 * y.fraction.1) (x.fraction.2 * y.fraction.2))

/-- The quotient of two finite floats, the second not zero, rounded once. -/
def div (x y : Binary64) : Binary64 :=
  ofParts (x.negative != y.negative)
    (nearestMagnitude (x.fraction.1 * y.fraction.2) (x.fraction.2 * y.fraction.1))

def neg (x : Binary64) : Binary64 := ofParts (!x.negative) x.magnitude

/-- The place of a pattern on the line of all patterns, from the negative NaNs up to the positive
ones; negative zero comes right before positive zero. -/
def place (x : Binary64) : Int :=
  if x.negative then -1 - (x.magnitude : Int) else x.magnitude

def compare (x y : Binary64) : Ordering := Ord.compare x.place y.place

end Binary64

end GraphTraversal
