import GraphTraversal.Bytecode.Basic
import GraphTraversal.Numeric.SipHash

/-! # Hash codes of bytecode

The code of a log folds the hashes of its instructions by exclusive or, each turned left by its
position, so the order of instructions counts.  The two logs start from different seeds and the code of
the pipeline's log is turned by half a word.

What is hashed is a sequence of atoms; the hash of such a sequence is a parameter.  Child bytecode
enters the sequence by its own code.  A constructor enters as its position among its siblings and a
list is led by its length, so a sequence can be read in one way only.
-/

namespace GraphTraversal

/-- A unit of what a hash function is fed. -/
inductive Atom where
  | bit (b : Bool)
  | word (w : UInt64)
  | text (s : String)
deriving DecidableEq

def Atom.count (n : Nat) : Atom := .word (.ofNat n)

abbrev Hasher := List Atom → UInt64

/-- Folds hashes into a seed, the one at position `i` turned left by `i`. -/
def foldHashes : Nat → UInt64 → List UInt64 → UInt64
  | _, code, [] => code
  | i, code, h :: l => foldHashes (i + 1) (code ^^^ rotateLeft h i) l

def sourceSeed : UInt64 := 0x736f75726365

def stepSeed : UInt64 := 0x73746570

def combineLogs (source steps : List UInt64) : UInt64 :=
  foldHashes 0 sourceSeed source ^^^ rotateLeft (foldHashes 0 stepSeed steps) 32

namespace Value

mutual

def atoms : Value → List Atom
  | .null => [.count 0]
  | .boolean b => [.count 1, .bit b]
  | .integer n => [.count 2, .word n.toUInt64]
  | .float x => [.count 3, .word x.bits]
  | .string s => [.count 4, .text s]
  | .vertex id => [.count 5, .count id.val]
  | .edge id => [.count 6, .count id.val]
  | .list items => .count 7 :: .count items.length :: itemAtoms items
  | .map entries => .count 8 :: .count entries.length :: entryAtoms entries

def itemAtoms : List Value → List Atom
  | [] => []
  | v :: l => v.atoms ++ itemAtoms l

def entryAtoms : List (Value × Value) → List Atom
  | [] => []
  | (k, v) :: l => k.atoms ++ v.atoms ++ entryAtoms l

end

end Value

/-- What a token feeds to a hash function: the position of its kind, then that of the constant among
those of its kind.  The kind of the fallback has one constant only, so nothing follows it. -/
def Token.atoms : Token → List Atom
  | .column .keys => [.count 0, .count 0]
  | .column .values => [.count 0, .count 1]
  | .order .ascending => [.count 1, .count 0]
  | .order .descending => [.count 1, .count 1]
  | .otherwise => [.count 2]

mutual

def Argument.atoms (h : Hasher) : Argument → List Atom
  | .literal v => .count 0 :: v.atoms
  | .token t => .count 1 :: t.atoms
  | .traversal code => [.count 2, .word (code.hashCode h)]
  | .binding name value => .count 3 :: .text name :: value.atoms h
  | .strategy s => .count 4 :: s.atoms h
  | .lambda l => [.count 5, .text l.name]

def Argument.atomsOfAll (h : Hasher) : List Argument → List Atom
  | [] => []
  | a :: l => a.atoms h ++ Argument.atomsOfAll h l

def Instruction.hash (h : Hasher) : Instruction → UInt64
  | ⟨operator, arguments⟩ =>
    h (.text operator :: .count arguments.length :: Argument.atomsOfAll h arguments)

def Instruction.hashes (h : Hasher) : List Instruction → List UInt64
  | [] => []
  | i :: l => i.hash h :: Instruction.hashes h l

def Bytecode.hashCode (h : Hasher) : Bytecode → UInt64
  | ⟨source, steps⟩ => combineLogs (Instruction.hashes h source) (Instruction.hashes h steps)

def Strategy.atoms (h : Hasher) : Strategy → List Atom
  | ⟨name, _, _, _, configuration, _⟩ =>
    .text name :: .count configuration.length :: Argument.atomsOfEntries h configuration

def Argument.atomsOfEntries (h : Hasher) : List (String × Argument) → List Atom
  | [] => []
  | (k, a) :: l => .text k :: a.atoms h ++ Argument.atomsOfEntries h l

end

/-! ## The standard hash function -/

/-- An atom as bytes.  A text ends with a byte that no text contains, so what follows it cannot be
taken for a part of it. -/
def Atom.bytes : Atom → List UInt8
  | .bit b => [if b then 1 else 0]
  | .word w => littleEndian w
  | .text s => s.toList.flatMap String.utf8EncodeChar ++ [0xff]

/-- The hash function that codes are told by: SipHash-1-3 of the bytes under the key of zeros. -/
def standardHash : Hasher := fun l => SipHash.hash 0 0 (l.flatMap Atom.bytes)

end GraphTraversal
