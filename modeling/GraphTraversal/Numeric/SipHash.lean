import GraphTraversal.Numeric.Word

/-! # SipHash-1-3

A keyed hash of bytes to a word.  Four words of state take in the message eight bytes at a time with one
round of mixing each; the bytes that are left over fill a last block whose highest byte is the length of
the message modulo 256.  Three more rounds close the hash.
-/

namespace GraphTraversal.SipHash

structure State where
  a : UInt64
  b : UInt64
  c : UInt64
  d : UInt64

def State.start (low high : UInt64) : State where
  a := low ^^^ 0x736f6d6570736575
  b := high ^^^ 0x646f72616e646f6d
  c := low ^^^ 0x6c7967656e657261
  d := high ^^^ 0x7465646279746573

/-- One round of mixing by additions, turns and exclusive ors. -/
def State.mix (s : State) : State :=
  let a := s.a + s.b
  let b := rotateLeft s.b 13 ^^^ a
  let a := rotateLeft a 32
  let c := s.c + s.d
  let d := rotateLeft s.d 16 ^^^ c
  let a := a + d
  let d := rotateLeft d 21 ^^^ a
  let c := c + b
  let b := rotateLeft b 17 ^^^ c
  { a, b, c := rotateLeft c 32, d }

def State.absorb (s : State) (block : UInt64) : State :=
  let s := { s with d := s.d ^^^ block }.mix
  { s with a := s.a ^^^ block }

def State.finish (s : State) : UInt64 :=
  let s := { s with c := s.c ^^^ 0xff }.mix.mix.mix
  s.a ^^^ s.b ^^^ s.c ^^^ s.d

def blocks (length : Nat) : List UInt8 → List UInt64
  | p :: q :: r :: s :: t :: u :: v :: w :: l =>
    ofLittleEndian [p, q, r, s, t, u, v, w] :: blocks length l
  | l => [ofLittleEndian l ||| UInt64.ofNat length <<< 56]

def hash (low high : UInt64) (message : List UInt8) : UInt64 :=
  ((blocks message.length message).foldl State.absorb (State.start low high)).finish

end GraphTraversal.SipHash
