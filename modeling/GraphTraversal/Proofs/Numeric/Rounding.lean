import Mathlib.Tactic.Linarith
import GraphTraversal.Numeric.Binary64

/-! # The float nearest to an integer

The nearest float keeps fifty-three bits of an integer, so it tells integers up to `2 ^ 53` apart, and
those beyond may share one.  It never turns the order of two integers around: the pattern grows with the
leading bit and, under one leading bit, with the bits that are kept.
-/

namespace GraphTraversal.Binary64

/-! ## Quotients -/

theorem le_roundQuotient (num den : Nat) : num / den ≤ roundQuotient num den := by
  simp only [roundQuotient]
  split_ifs <;> omega

theorem roundQuotient_le (num den : Nat) : roundQuotient num den ≤ num / den + 1 := by
  simp only [roundQuotient]
  split_ifs <;> omega

theorem roundQuotient_mono {num num' : Nat} (den : Nat) (h : num ≤ num') :
    roundQuotient num den ≤ roundQuotient num' den := by
  have hquotient : num / den ≤ num' / den := Nat.div_le_div_right h
  obtain hlt | heq := hquotient.lt_or_eq
  · exact (roundQuotient_le num den).trans (hlt.trans_le (le_roundQuotient num' den))
  · have hrest : num % den ≤ num' % den := by
      have := Nat.div_add_mod num den
      have := Nat.div_add_mod num' den
      rw [heq] at *
      omega
    simp only [roundQuotient, heq]
    split_ifs <;> omega

/-! ## Naturals -/

/-- The leading bit of a natural and the fifty-two bits after it; a short one is filled up with zeros. -/
def leadingBits (n : Nat) : Nat := n * 2 ^ (52 - n.log2) / 2 ^ (n.log2 - 52)

theorem leadingBits_bounds {n : Nat} (hn : n ≠ 0) :
    2 ^ 52 ≤ leadingBits n ∧ leadingBits n < 2 ^ 53 := by
  have hlow := Nat.log2_self_le hn
  have hhigh := Nat.lt_log2_self (n := n)
  rw [pow_succ] at hhigh
  rw [leadingBits]
  obtain hshort | hlong := Nat.le_total n.log2 52
  · rw [Nat.sub_eq_zero_of_le hshort, pow_zero, Nat.div_one]
    have hpow : 2 ^ n.log2 * 2 ^ (52 - n.log2) = 2 ^ 52 := by
      rw [← pow_add, Nat.add_sub_cancel' hshort]
    have hpos : 0 < 2 ^ (52 - n.log2) := Nat.pow_pos (by decide)
    constructor <;> nlinarith
  · rw [Nat.sub_eq_zero_of_le hlong, pow_zero, Nat.mul_one]
    have hpow : 2 ^ n.log2 = 2 ^ 52 * 2 ^ (n.log2 - 52) := by
      rw [← pow_add, Nat.add_sub_cancel' hlong]
    have hpos : 0 < 2 ^ (n.log2 - 52) := Nat.pow_pos (by decide)
    rw [Nat.le_div_iff_mul_le hpos, Nat.div_lt_iff_lt_mul hpos]
    constructor <;> nlinarith

/-- The unit of the last place is fixed by the leading bit. -/
theorem nearestMagnitude_natural {n : Nat} (hn : n ≠ 0) :
    nearestMagnitude n 1 =
      min ((n.log2 + 1022) * 2 ^ 52 + roundQuotient (n * 2 ^ (52 - n.log2)) (2 ^ (n.log2 - 52)))
        infiniteMagnitude := by
  have htight := (leadingBits_bounds hn).1.not_gt
  rw [leadingBits] at htight
  have hone : Nat.log2 1 = 0 := by decide
  have hdown : (-((n.log2 : Int) - 52)).toNat = 52 - n.log2 := by omega
  have hup : ((n.log2 : Int) - 52).toNat = n.log2 - 52 := by omega
  have hbottom : max (-1074) ((n.log2 : Int) - 52) = n.log2 - 52 := by omega
  have hexponent : ((n.log2 : Int) - 52 + 1074).toNat = n.log2 + 1022 := by omega
  simp only [nearestMagnitude, hn, if_false, hone, Nat.cast_zero, sub_zero, hdown, hup, Nat.pow_eq,
    one_mul, htight, hbottom, hexponent]

theorem nearestMagnitude_mono {n n' : Nat} (h : n ≤ n') :
    nearestMagnitude n 1 ≤ nearestMagnitude n' 1 := by
  obtain rfl | hn := Nat.eq_zero_or_pos n
  · exact Nat.zero_le _
  · have hn' := hn.trans_le h
    rw [nearestMagnitude_natural hn.ne', nearestMagnitude_natural hn'.ne']
    apply min_le_min_right
    have hlog : n.log2 ≤ n'.log2 := by
      rw [Nat.le_log2 hn'.ne']
      exact (Nat.log2_self_le hn.ne').trans h
    obtain hlt | heq := hlog.lt_or_eq
    · -- rounding up carries at most into the next power of two
      have hbits := leadingBits_bounds hn.ne'
      have hbits' := leadingBits_bounds hn'.ne'
      have := roundQuotient_le (n * 2 ^ (52 - n.log2)) (2 ^ (n.log2 - 52))
      have := le_roundQuotient (n' * 2 ^ (52 - n'.log2)) (2 ^ (n'.log2 - 52))
      simp only [leadingBits] at hbits hbits'
      omega
    · rw [heq]
      exact Nat.add_le_add_left (roundQuotient_mono _ (Nat.mul_le_mul_right _ h)) _

theorem nearestMagnitude_lt (n : Nat) : nearestMagnitude n 1 < 2 ^ 63 := by
  obtain rfl | hn := Nat.eq_zero_or_pos n
  · decide
  · rw [nearestMagnitude_natural hn.ne']
    exact (min_le_right _ _).trans_lt (by decide)

/-! ## Places -/

theorem place_injective {x y : Binary64} (h : x.place = y.place) : x = y := by
  have hx := x.bits.toNat_lt
  have hy := y.bits.toNat_lt
  have hbits : x.bits.toNat = y.bits.toNat := by
    simp only [place, negative, magnitude, Nat.pow_eq, decide_eq_true_eq] at h
    split_ifs at h <;> omega
  exact congr_arg mk (UInt64.toNat_inj.1 hbits)

theorem place_ofParts (negative : Bool) {magnitude : Nat} (h : magnitude < 2 ^ 63) :
    (ofParts negative magnitude).place = if negative then -1 - (magnitude : Int) else magnitude := by
  cases negative with
  | true =>
    have hbits : (ofParts true magnitude).bits.toNat = magnitude + 2 ^ 63 := by
      simp only [ofParts, if_true, Nat.pow_eq, UInt64.toNat_ofNat']
      omega
    have hnegative : (ofParts true magnitude).negative := by
      simp only [Binary64.negative, hbits, Nat.pow_eq, decide_eq_true_eq]
      omega
    have hmagnitude : (ofParts true magnitude).magnitude = magnitude := by
      simp only [Binary64.magnitude, hbits, Nat.pow_eq]
      omega
    rw [place, hnegative, hmagnitude]
  | false =>
    have hbits : (ofParts false magnitude).bits.toNat = magnitude := by
      simp only [ofParts, Bool.false_eq_true, if_false, UInt64.toNat_ofNat']
      omega
    have hnegative : (ofParts false magnitude).negative = false := by
      simp only [Binary64.negative, hbits, Nat.pow_eq, decide_eq_false_iff_not]
      omega
    have hmagnitude : (ofParts false magnitude).magnitude = magnitude := by
      simp only [Binary64.magnitude, hbits, Nat.pow_eq]
      omega
    rw [place, hnegative, hmagnitude]

/-- Rounding keeps the order of integers, if not their difference. -/
theorem place_ofInt_mono {n n' : Int} (h : n ≤ n') : (ofInt n).place ≤ (ofInt n').place := by
  rw [ofInt, ofInt, place_ofParts _ (nearestMagnitude_lt _), place_ofParts _ (nearestMagnitude_lt _)]
  simp only [decide_eq_true_eq]
  split_ifs with hn hn'
  · have := nearestMagnitude_mono (show n'.natAbs ≤ n.natAbs by omega)
    omega
  · omega
  · omega
  · have := nearestMagnitude_mono (show n.natAbs ≤ n'.natAbs by omega)
    omega

/-! ## Integers that are floats -/

/-- An integer of at most fifty-three bits is kept whole. -/
theorem leadingBits_mul {n : Nat} (h : n ≤ 2 ^ 53) :
    leadingBits n * 2 ^ (n.log2 - 52) = n * 2 ^ (52 - n.log2) := by
  apply Nat.div_mul_cancel
  obtain hshort | hlong := Nat.lt_or_ge n.log2 53
  · rw [Nat.sub_eq_zero_of_le (Nat.le_of_lt_succ hshort), pow_zero]
    exact Nat.one_dvd _
  · have hn : n ≠ 0 := by
      rintro rfl
      exact absurd hlong (by decide)
    obtain rfl : n = 2 ^ 53 := le_antisymm h ((Nat.le_log2 hn).1 hlong)
    decide

theorem nearestMagnitude_exact {n : Nat} (hn : n ≠ 0) (h : n ≤ 2 ^ 53) :
    nearestMagnitude n 1 = (n.log2 + 1022) * 2 ^ 52 + leadingBits n := by
  have hbits := (leadingBits_bounds hn).2
  have hlog : n.log2 ≤ 53 := by
    rw [← Nat.lt_succ_iff, Nat.log2_lt hn]
    exact h.trans_lt (by decide)
  have hexact : roundQuotient (n * 2 ^ (52 - n.log2)) (2 ^ (n.log2 - 52)) = leadingBits n := by
    have hpos : 0 < 2 ^ (n.log2 - 52) := Nat.pow_pos (by decide)
    have hrest : n * 2 ^ (52 - n.log2) % 2 ^ (n.log2 - 52) = 0 := by
      rw [← leadingBits_mul h, Nat.mul_mod_left]
    simp [roundQuotient, hrest, hpos, leadingBits]
  rw [nearestMagnitude_natural hn, hexact]
  apply Nat.min_eq_left
  simp only [infiniteMagnitude, Nat.pow_eq]
  omega

theorem nearestMagnitude_eq_zero_iff {n : Nat} (h : n ≤ 2 ^ 53) : nearestMagnitude n 1 = 0 ↔ n = 0 := by
  constructor
  · intro hzero
    by_contra hn
    rw [nearestMagnitude_exact hn h] at hzero
    omega
  · rintro rfl
    rfl

theorem nearestMagnitude_injOn {m n : Nat} (hm : m ≤ 2 ^ 53) (hn : n ≤ 2 ^ 53)
    (h : nearestMagnitude m 1 = nearestMagnitude n 1) : m = n := by
  have hiff : m = 0 ↔ n = 0 := by
    rw [← nearestMagnitude_eq_zero_iff hm, ← nearestMagnitude_eq_zero_iff hn, h]
  by_cases hzero : m = 0
  · exact hzero.trans (hiff.1 hzero).symm
  · have hzero' : n ≠ 0 := mt hiff.2 hzero
    have hbits := leadingBits_bounds hzero
    have hbits' := leadingBits_bounds hzero'
    rw [nearestMagnitude_exact hzero hm, nearestMagnitude_exact hzero' hn] at h
    obtain ⟨hlog, hleading⟩ : m.log2 = n.log2 ∧ leadingBits m = leadingBits n := by omega
    have hscaled : m * 2 ^ (52 - n.log2) = n * 2 ^ (52 - n.log2) := by
      rw [← leadingBits_mul hn, ← hlog, ← leadingBits_mul hm, hleading]
    exact Nat.eq_of_mul_eq_mul_right (Nat.pow_pos (by decide)) hscaled

/-- Rounding changes no integer up to `2 ^ 53`, so it tells them apart. -/
theorem ofInt_injOn {m n : Int} (hm : m.natAbs ≤ 2 ^ 53) (hn : n.natAbs ≤ 2 ^ 53)
    (h : ofInt m = ofInt n) : m = n := by
  have hplace := congr_arg place h
  rw [ofInt, ofInt, place_ofParts _ (nearestMagnitude_lt _),
    place_ofParts _ (nearestMagnitude_lt _)] at hplace
  simp only [decide_eq_true_eq] at hplace
  have habs : m.natAbs = n.natAbs := by
    apply nearestMagnitude_injOn hm hn
    split_ifs at hplace <;> omega
  split_ifs at hplace <;> omega

end GraphTraversal.Binary64
