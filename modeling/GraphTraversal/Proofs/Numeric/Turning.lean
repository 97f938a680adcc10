import Mathlib.Data.Nat.Basic
import GraphTraversal.Numeric.Word

/-! # Turning words

The bits of a word stand in a circle of sixty-four places.  To turn the word left is to read each bit as
many places lower, so that turns add up, a turn by a multiple of sixty-four changes nothing, every turn
can be taken back, and a turn goes through an exclusive or.
-/

namespace GraphTraversal

/-- The bit of a word in a place of the circle. -/
def bitAt (w : UInt64) (i : Nat) : Bool := w.toBitVec.getLsbD (i % 64)

theorem bitAt_congr (w : UInt64) {i j : Nat} (h : i % 64 = j % 64) : bitAt w i = bitAt w j := by
  rw [bitAt, bitAt, h]

theorem eq_of_bitAt {v w : UInt64} (h : ∀ i, bitAt v i = bitAt w i) : v = w := by
  apply UInt64.toBitVec_inj.1
  apply BitVec.eq_of_getLsbD_eq
  intro i hi
  have hbit := h i
  rwa [bitAt, bitAt, Nat.mod_eq_of_lt hi] at hbit

/-- Sixty-three places higher is one place lower. -/
theorem bitAt_rotateLeft (w : UInt64) (n i : Nat) : bitAt (rotateLeft w n) i = bitAt w (i + 63 * n) := by
  simp only [bitAt, rotateLeft, BitVec.getLsbD_rotateLeft]
  by_cases h : i % 64 < n % 64
  · rw [decide_eq_true h, cond_true]
    congr 1
    omega
  · have hi : i % 64 < 64 := Nat.mod_lt i (by decide)
    rw [decide_eq_false h, cond_false, decide_eq_true hi, Bool.true_and]
    congr 1
    omega

theorem bitAt_xor (v w : UInt64) (i : Nat) : bitAt (v ^^^ w) i = (bitAt v i ^^ bitAt w i) := by
  simp [bitAt]

theorem rotateLeft_xor (v w : UInt64) (n : Nat) :
    rotateLeft (v ^^^ w) n = rotateLeft v n ^^^ rotateLeft w n := by
  apply eq_of_bitAt
  intro i
  simp only [bitAt_rotateLeft, bitAt_xor]

theorem rotateLeft_rotateLeft (w : UInt64) (m n : Nat) :
    rotateLeft (rotateLeft w m) n = rotateLeft w (m + n) := by
  apply eq_of_bitAt
  intro i
  simp only [bitAt_rotateLeft]
  apply bitAt_congr
  omega

theorem rotateLeft_of_dvd {n : Nat} (h : 64 ∣ n) (w : UInt64) : rotateLeft w n = w := by
  apply eq_of_bitAt
  intro i
  rw [bitAt_rotateLeft]
  apply bitAt_congr
  omega

theorem rotateLeft_mod (w : UInt64) (n : Nat) : rotateLeft w (n % 64) = rotateLeft w n := by
  apply eq_of_bitAt
  intro i
  simp only [bitAt_rotateLeft]
  apply bitAt_congr
  omega

theorem rotateLeft_inj {v w : UInt64} {n : Nat} : rotateLeft v n = rotateLeft w n ↔ v = w := by
  constructor
  · intro h
    have hback : ∀ u, rotateLeft (rotateLeft u n) (63 * n) = u := by
      intro u
      rw [rotateLeft_rotateLeft]
      exact rotateLeft_of_dvd (by omega) u
    rw [← hback v, h, hback w]
  · rintro rfl
    rfl

/-- Two turns of a word agree if the difference between them leaves it as it is. -/
theorem rotateLeft_eq_iff {w : UInt64} {m n : Nat} (h : m ≤ n) :
    rotateLeft w m = rotateLeft w n ↔ rotateLeft w (n - m) = w := by
  have hn : rotateLeft w n = rotateLeft (rotateLeft w (n - m)) m := by
    rw [rotateLeft_rotateLeft, Nat.sub_add_cancel h]
  rw [hn, rotateLeft_inj]
  exact eq_comm

/-- A word that no turn by one to sixty-three places leaves as it is. -/
def Aperiodic (w : UInt64) : Prop := ∀ n, 1 ≤ n → n ≤ 63 → rotateLeft w n ≠ w

/-- Only full turns leave an aperiodic word as it is. -/
theorem Aperiodic.rotateLeft_eq_self_iff {w : UInt64} (h : Aperiodic w) {n : Nat} :
    rotateLeft w n = w ↔ 64 ∣ n := by
  constructor
  · intro hn
    rw [← rotateLeft_mod] at hn
    by_contra hdvd
    exact h (n % 64) (by omega) (by omega) hn
  · exact fun hdvd => rotateLeft_of_dvd hdvd w

theorem rotateLeft_mul_of_eq_self {w : UInt64} {n : Nat} (h : rotateLeft w n = w) (k : Nat) :
    rotateLeft w (n * k) = w := by
  induction k with
  | zero => exact rotateLeft_of_dvd (Nat.dvd_zero 64) w
  | succ k ih => rw [Nat.mul_succ, ← rotateLeft_rotateLeft, ih, h]

/-- Any turn that is not full comes to half a turn when it is repeated often enough. -/
theorem aperiodic_iff {w : UInt64} : Aperiodic w ↔ rotateLeft w 32 ≠ w := by
  constructor
  · exact fun h => h 32 (by decide) (by decide)
  · intro h n hpos hlt hn
    have hhalf : ∀ n < 64, 1 ≤ n → ∃ k < 64, n * k % 64 = 32 := by decide +kernel
    obtain ⟨k, -, hk⟩ := hhalf n (by omega) hpos
    apply h
    rw [← hk, rotateLeft_mod]
    exact rotateLeft_mul_of_eq_self hn k

instance (w : UInt64) : Decidable (Aperiodic w) := decidable_of_iff _ aperiodic_iff.symm

end GraphTraversal
