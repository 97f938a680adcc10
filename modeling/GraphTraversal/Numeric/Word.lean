/-! # Words of sixty-four bits

Turning a word, and spelling it as bytes with the least significant one first.
-/

namespace GraphTraversal

/-- Turns a word left; the amount counts modulo 64. -/
def rotateLeft (w : UInt64) (n : Nat) : UInt64 :=
  ⟨w.toBitVec.rotateLeft n⟩

def lowBytes : Nat → UInt64 → List UInt8
  | 0, _ => []
  | count + 1, w => w.toUInt8 :: lowBytes count (w >>> 8)

/-- A word as its eight bytes, the least significant one first. -/
def littleEndian (w : UInt64) : List UInt8 := lowBytes 8 w

/-- The word that bytes spell, the least significant one first; only eight of them fit. -/
def ofLittleEndian (l : List UInt8) : UInt64 :=
  l.foldr (fun b w => w <<< 8 ||| b.toUInt64) 0

end GraphTraversal
