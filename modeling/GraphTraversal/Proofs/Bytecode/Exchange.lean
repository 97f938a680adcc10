import Mathlib.Data.List.Basic
import GraphTraversal.Bytecode.HashCode
import GraphTraversal.Proofs.Numeric.Turning

/-! # Hash codes and the order of instructions

Another instruction in a place of a log changes the code by the difference of the two hashes, turned by
the place.  Two instructions that change places thus change the code by their difference turned in two
ways.  That shows unless the distance of the places is a turn that leaves the difference as it is; a
distance of sixty-four places is a full turn, so instructions that far apart change places unseen.
-/

namespace GraphTraversal

/-! ## Folds of hashes -/

theorem foldHashes_xor (i : Nat) (c d : UInt64) (l : List UInt64) :
    foldHashes i (c ^^^ d) l = foldHashes i c l ^^^ d := by
  induction l generalizing i c with
  | nil => rfl
  | cons h l ih =>
    rw [foldHashes, foldHashes, ← ih, UInt64.xor_assoc, UInt64.xor_assoc, UInt64.xor_comm d]

/-- Another hash in a place changes the code by the difference, turned by the place. -/
theorem foldHashes_set {l : List UInt64} {k : Nat} {x : UInt64} (hx : l[k]? = some x) (i : Nat)
    (c y : UInt64) :
    foldHashes i c (l.set k y) = foldHashes i c l ^^^ rotateLeft (x ^^^ y) (i + k) := by
  induction l generalizing i k c with
  | nil => simp at hx
  | cons h l ih =>
    cases k with
    | zero =>
      obtain rfl : h = x := by simpa using hx
      have hturn : rotateLeft h i ^^^ rotateLeft (h ^^^ y) i = rotateLeft y i := by
        rw [rotateLeft_xor, ← UInt64.xor_assoc, UInt64.xor_self, UInt64.zero_xor]
      rw [List.set_cons_zero, foldHashes, foldHashes, ← foldHashes_xor, UInt64.xor_assoc,
        Nat.add_zero i, hturn]
    | succ k =>
      rw [List.set_cons_succ, foldHashes, foldHashes, ih (by simpa using hx), Nat.add_right_comm,
        Nat.add_assoc i]

/-! ## Exchanges -/

def exchange {α : Type} (l : List α) (i j : Nat) : List α :=
  match l[i]?, l[j]? with
  | some x, some y => (l.set i y).set j x
  | _, _ => l

theorem exchange_eq {α : Type} {l : List α} {i j : Nat} {x y : α} (hx : l[i]? = some x)
    (hy : l[j]? = some y) : exchange l i j = (l.set i y).set j x := by
  rw [exchange, hx, hy]

theorem map_exchange {α β : Type} (f : α → β) {l : List α} {i j : Nat} {x y : α} (hx : l[i]? = some x)
    (hy : l[j]? = some y) : (exchange l i j).map f = exchange (l.map f) i j := by
  have hx' : (l.map f)[i]? = some (f x) := by simp [hx]
  have hy' : (l.map f)[j]? = some (f y) := by simp [hy]
  rw [exchange_eq hx hy, exchange_eq hx' hy', List.map_set, List.map_set]

/-- An exchange changes the code by the difference of the two hashes, turned by each of the places. -/
theorem foldHashes_exchange {l : List UInt64} {i j : Nat} {x y : UInt64} (hij : i < j)
    (hx : l[i]? = some x) (hy : l[j]? = some y) (c : UInt64) :
    foldHashes 0 c (exchange l i j) =
      foldHashes 0 c l ^^^ (rotateLeft (x ^^^ y) i ^^^ rotateLeft (x ^^^ y) j) := by
  have hy' : (l.set i y)[j]? = some y := by rw [List.getElem?_set_ne (Nat.ne_of_lt hij), hy]
  rw [exchange_eq hx hy, foldHashes_set hy', foldHashes_set hx, Nat.zero_add, Nat.zero_add,
    UInt64.xor_comm y, UInt64.xor_assoc]

theorem foldHashes_exchange_eq_iff {l : List UInt64} {i j : Nat} {x y : UInt64} (hij : i < j)
    (hx : l[i]? = some x) (hy : l[j]? = some y) (c : UInt64) :
    foldHashes 0 c (exchange l i j) = foldHashes 0 c l ↔ rotateLeft (x ^^^ y) (j - i) = x ^^^ y := by
  calc foldHashes 0 c (exchange l i j) = foldHashes 0 c l
      ↔ foldHashes 0 c l ^^^ (rotateLeft (x ^^^ y) i ^^^ rotateLeft (x ^^^ y) j) =
          foldHashes 0 c l ^^^ 0 := by rw [foldHashes_exchange hij hx hy, UInt64.xor_zero]
    _ ↔ rotateLeft (x ^^^ y) i ^^^ rotateLeft (x ^^^ y) j = 0 := UInt64.xor_right_inj _
    _ ↔ rotateLeft (x ^^^ y) i = rotateLeft (x ^^^ y) j := UInt64.xor_eq_zero_iff
    _ ↔ rotateLeft (x ^^^ y) (j - i) = x ^^^ y := rotateLeft_eq_iff (Nat.le_of_lt hij)

/-! ## Codes of bytecode -/

inductive Log where
  | source
  | steps

namespace Bytecode

def log (b : Bytecode) : Log → List Instruction
  | .source => b.source
  | .steps => b.steps

/-- The bytecode with the instructions in two places of a log exchanged. -/
def exchange (b : Bytecode) (log : Log) (i j : Nat) : Bytecode :=
  match log with
  | .source => { b with source := GraphTraversal.exchange b.source i j }
  | .steps => { b with steps := GraphTraversal.exchange b.steps i j }

/-- The code of bytecode whose instructions are hashed by `h`. -/
def codeBy (h : Instruction → UInt64) (b : Bytecode) : UInt64 :=
  combineLogs (b.source.map h) (b.steps.map h)

end Bytecode

theorem Instruction.hashes_eq (hasher : Hasher) (l : List Instruction) :
    Instruction.hashes hasher l = l.map (·.hash hasher) := by
  induction l with
  | nil => rfl
  | cons i l ih => simp [Instruction.hashes, ih]

namespace Bytecode

theorem hashCode_eq_codeBy (hasher : Hasher) (b : Bytecode) :
    b.hashCode hasher = b.codeBy (·.hash hasher) := by
  cases b
  simp [hashCode, codeBy, Instruction.hashes_eq]

variable {b : Bytecode} {log : Log} {i j : Nat} {p q : Instruction}

theorem codeBy_exchange_eq_iff (h : Instruction → UInt64) (hij : i < j) (hp : (b.log log)[i]? = some p)
    (hq : (b.log log)[j]? = some q) :
    (b.exchange log i j).codeBy h = b.codeBy h ↔ rotateLeft (h p ^^^ h q) (j - i) = h p ^^^ h q := by
  have hp' : ((b.log log).map h)[i]? = some (h p) := by simp [hp]
  have hq' : ((b.log log).map h)[j]? = some (h q) := by simp [hq]
  cases log with
  | source =>
    rw [← foldHashes_exchange_eq_iff hij hp' hq' sourceSeed, ← map_exchange h hp hq]
    exact UInt64.xor_left_inj _
  | steps =>
    rw [← foldHashes_exchange_eq_iff hij hp' hq' stepSeed, ← map_exchange h hp hq]
    exact (UInt64.xor_right_inj _).trans rotateLeft_inj

/-- Whatever hashes the instructions, an exchange of two of them shows in the code if and only if a turn
by the distance of their places changes the difference of their hashes.  If every turn by one to
sixty-three places changes it, the exchange shows unless the distance is a multiple of sixty-four. -/
theorem exchange_shows_iff (h : Instruction → UInt64) (b : Bytecode) (log : Log) {i j : Nat}
    {p q : Instruction} (hij : i < j) (hp : (b.log log)[i]? = some p) (hq : (b.log log)[j]? = some q) :
    ((b.exchange log i j).codeBy h ≠ b.codeBy h ↔ rotateLeft (h p ^^^ h q) (j - i) ≠ h p ^^^ h q) ∧
      (Aperiodic (h p ^^^ h q) → ((b.exchange log i j).codeBy h ≠ b.codeBy h ↔ ¬64 ∣ j - i)) ∧
      ∀ (hasher : Hasher) (c : Bytecode), c.hashCode hasher = c.codeBy (·.hash hasher) := by
  have hiff := codeBy_exchange_eq_iff h hij hp hq
  refine ⟨not_congr hiff, fun haperiodic => ?_, hashCode_eq_codeBy⟩
  exact not_congr (hiff.trans haperiodic.rotateLeft_eq_self_iff)

/-- Two steps in a row, in either order. -/
theorem exchange_shows_next_door :
    let b : Bytecode := { steps := [⟨"out", []⟩, ⟨"in", []⟩] }
    Aperiodic ((⟨"out", []⟩ : Instruction).hash standardHash ^^^
      (⟨"in", []⟩ : Instruction).hash standardHash) ∧
    b.exchange .steps 0 1 = { steps := [⟨"in", []⟩, ⟨"out", []⟩] } ∧
    (b.exchange .steps 0 1).hashCode standardHash ≠ b.hashCode standardHash := by
  intro b
  have haperiodic : Aperiodic ((⟨"out", []⟩ : Instruction).hash standardHash ^^^
      (⟨"in", []⟩ : Instruction).hash standardHash) := by decide +kernel
  refine ⟨haperiodic, rfl, ?_⟩
  rw [hashCode_eq_codeBy, hashCode_eq_codeBy]
  have hshows := (exchange_shows_iff (·.hash standardHash) b .steps (by decide : 0 < 1) rfl rfl).2.1
    haperiodic
  exact hshows.2 (by decide)

/-- The first and the last of sixty-five steps can change places without a trace, although their hashes
differ in a way that every turn by one to sixty-three places changes. -/
theorem exchange_unseen :
    let p : Instruction := ⟨"out", []⟩
    let q : Instruction := ⟨"in", []⟩
    let b : Bytecode := { steps := p :: List.replicate 63 ⟨"both", []⟩ ++ [q] }
    b.steps[0]? = some p ∧ b.steps[64]? = some q ∧
      Aperiodic (p.hash standardHash ^^^ q.hash standardHash) ∧
      b.exchange .steps 0 64 = { steps := q :: List.replicate 63 ⟨"both", []⟩ ++ [p] } ∧
      (b.exchange .steps 0 64).hashCode standardHash = b.hashCode standardHash := by
  intro p q b
  refine ⟨rfl, rfl, by decide +kernel, rfl, ?_⟩
  rw [hashCode_eq_codeBy, hashCode_eq_codeBy,
    codeBy_exchange_eq_iff _ (by decide : 0 < 64) (p := p) (q := q) rfl rfl]
  exact rotateLeft_of_dvd (by decide) _

end Bytecode

end GraphTraversal
