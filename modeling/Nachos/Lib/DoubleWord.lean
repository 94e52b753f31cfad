import Mathlib.Data.Nat.Notation
import Mathlib.Tactic.Common
import Mathlib.Tactic.Ring

/-!
# Double words

A number of `2 * w` bits in two words of `w` bits, as code without double words computes with it.

* `value_add`: the sum, with the carry out of the low words found by a comparison.
* `value_double`: twice the number, with the top bit of the low word moved over.
* `value_neg`: the two's complement.
-/

namespace DoubleWord

variable {w : ℕ}

/-- The number in two words. -/
def value (hi lo : BitVec w) : ℕ := hi.toNat * 2 ^ w + lo.toNat

theorem toNat_append (hi lo : BitVec w) : (hi ++ lo).toNat = value hi lo := by
  rw [BitVec.toNat_append, ← Nat.shiftLeft_add_eq_or_of_lt lo.isLt, Nat.shiftLeft_eq]
  rfl

/-- The high word is bounded by any bound on the number. -/
theorem lt_of_mul_le {a n : ℕ} (h : a * 2 ^ w ≤ n) (hn : n < 2 ^ w * 2 ^ w) : a < 2 ^ w :=
  Nat.lt_of_mul_lt_mul_right (h.trans_lt hn)

/-- **The sum of two double words**, if it fits. -/
theorem value_add {hi lo bHi bLo : BitVec w}
    (h : value hi lo + value bHi bLo < 2 ^ w * 2 ^ w) :
    value ((if lo + bLo < bLo then hi + 1#w else hi) + bHi) (lo + bLo) =
      value hi lo + value bHi bLo := by
  have hlo := lo.isLt
  have hbLo := bLo.isLt
  have hsum : value hi lo + value bHi bLo =
      (hi.toNat + bHi.toNat) * 2 ^ w + (lo.toNat + bLo.toNat) := by
    unfold value
    ring
  rw [hsum] at h ⊢
  by_cases hcarry : lo.toNat + bLo.toNat < 2 ^ w
  · -- no carry
    have hlow : (lo + bLo).toNat = lo.toNat + bLo.toNat := by
      rw [BitVec.toNat_add, Nat.mod_eq_of_lt hcarry]
    have hnot : ¬ lo + bLo < bLo := by
      rw [BitVec.lt_def, hlow]
      omega
    have hhigh : hi.toNat + bHi.toNat < 2 ^ w := lt_of_mul_le (Nat.le_add_right _ _) h
    rw [if_neg hnot]
    unfold value
    rw [hlow, BitVec.toNat_add, Nat.mod_eq_of_lt hhigh]
  · have hlow : (lo + bLo).toNat + 2 ^ w = lo.toNat + bLo.toNat := by
      rw [BitVec.toNat_add, Nat.mod_eq_sub_mod (by omega), Nat.mod_eq_of_lt (by omega)]
      omega
    have hlt : lo + bLo < bLo := by
      rw [BitVec.lt_def]
      omega
    have hhigh : hi.toNat + bHi.toNat + 1 < 2 ^ w := by
      refine lt_of_mul_le ?_ h
      calc (hi.toNat + bHi.toNat + 1) * 2 ^ w = (hi.toNat + bHi.toNat) * 2 ^ w + 2 ^ w := by ring
        _ ≤ (hi.toNat + bHi.toNat) * 2 ^ w + (lo.toNat + bLo.toNat) := by omega
    have hone : (1#w).toNat = 1 := by
      rw [BitVec.toNat_ofNat]
      exact Nat.mod_eq_of_lt (by omega)
    have hword : (hi + 1#w + bHi).toNat = hi.toNat + bHi.toNat + 1 := by
      rw [BitVec.toNat_add, BitVec.toNat_add, hone, Nat.mod_add_mod]
      rw [Nat.mod_eq_of_lt (by omega)]
      omega
    rw [if_pos hlt]
    unfold value
    rw [hword, ← hlow]
    ring

/-- **Twice a double word**, if it fits. -/
theorem value_double {hi lo : BitVec w} (hw : 0 < w) (h : 2 * value hi lo < 2 ^ w * 2 ^ w) :
    value (if lo.msb then hi <<< 1 ||| 1#w else hi <<< 1) (lo <<< 1) = 2 * value hi lo := by
  have hlo := lo.isLt
  have hpow : 2 ^ w = 2 * 2 ^ (w - 1) := by
    rw [← Nat.pow_succ', Nat.succ_eq_add_one, Nat.sub_add_cancel hw]
  have hhigh : 2 * hi.toNat < 2 ^ w := by
    refine lt_of_mul_le ?_ h
    unfold value
    rw [Nat.mul_add, ← Nat.mul_assoc]
    exact Nat.le_add_right _ _
  have hshift : (hi <<< 1).toNat = 2 * hi.toNat := by
    rw [BitVec.toNat_shiftLeft, Nat.shiftLeft_eq, Nat.pow_one, Nat.mul_comm,
      Nat.mod_eq_of_lt hhigh]
  have hlow : (lo <<< 1).toNat = 2 * lo.toNat % 2 ^ w := by
    rw [BitVec.toNat_shiftLeft, Nat.shiftLeft_eq, Nat.pow_one, Nat.mul_comm]
  by_cases hmsb : lo.msb = true
  · have hge : 2 ^ (w - 1) ≤ lo.toNat := by
      rw [BitVec.msb_eq_decide] at hmsb
      exact of_decide_eq_true hmsb
    have hone : (1#w).toNat = 1 := by
      rw [BitVec.toNat_ofNat]
      exact Nat.mod_eq_of_lt (Nat.one_lt_two_pow (by omega))
    have hword : (hi <<< 1 ||| 1#w).toNat = 2 * hi.toNat + 1 := by
      rw [BitVec.toNat_or, hshift, hone]
      exact (Nat.two_pow_add_eq_or_of_lt (i := 1) (by decide) hi.toNat).symm
    rw [if_pos hmsb]
    unfold value
    rw [hword, hlow, Nat.mod_eq_sub_mod (by omega), Nat.mod_eq_of_lt (by omega)]
    have hsplit : (2 * hi.toNat + 1) * 2 ^ w = 2 * (hi.toNat * 2 ^ w) + 2 ^ w := by ring
    omega
  · have hlt : lo.toNat < 2 ^ (w - 1) := by
      rw [BitVec.msb_eq_decide, decide_eq_true_eq] at hmsb
      omega
    rw [if_neg hmsb]
    unfold value
    rw [hshift, hlow, Nat.mod_eq_of_lt (by omega), Nat.mul_add, Nat.mul_assoc]

/-- **The two's complement of a double word**, if it is not 0. -/
theorem value_neg {hi lo : BitVec w} (h : 0 < value hi lo) :
    value (if ~~~lo + 1#w = 0#w then ~~~hi + 1#w else ~~~hi) (~~~lo + 1#w) + value hi lo =
      2 ^ w * 2 ^ w := by
  have hhi := hi.isLt
  have hlo := lo.isLt
  rw [← BitVec.neg_eq_not_add lo, ← BitVec.neg_eq_not_add hi]
  by_cases hzero : lo = 0#w
  · subst hzero
    have hpos : 0 < hi.toNat := by
      unfold value at h
      rw [BitVec.toNat_ofNat, Nat.zero_mod, Nat.add_zero] at h
      exact Nat.pos_of_mul_pos_right h
    have hneg : (-hi).toNat + hi.toNat = 2 ^ w := by
      rw [BitVec.toNat_neg, Nat.mod_eq_of_lt (by omega)]
      omega
    rw [BitVec.neg_zero, if_pos rfl]
    unfold value
    rw [← hneg, BitVec.toNat_ofNat, Nat.zero_mod]
    ring
  · have hpos : 0 < lo.toNat := Nat.pos_of_ne_zero fun h0 => hzero (BitVec.eq_of_toNat_eq (by
      rw [h0, BitVec.toNat_ofNat, Nat.zero_mod]))
    have hneg : (-lo).toNat + lo.toNat = 2 ^ w := by
      rw [BitVec.toNat_neg, Nat.mod_eq_of_lt (by omega)]
      omega
    have hne : -lo ≠ 0#w := by
      intro h0
      rw [h0, BitVec.toNat_ofNat, Nat.zero_mod] at hneg
      omega
    have hnot : (~~~hi).toNat + (hi.toNat + 1) = 2 ^ w := by
      rw [BitVec.toNat_not]
      omega
    rw [if_neg hne]
    unfold value
    calc (~~~hi).toNat * 2 ^ w + (-lo).toNat + (hi.toNat * 2 ^ w + lo.toNat)
        = ((~~~hi).toNat + hi.toNat) * 2 ^ w + ((-lo).toNat + lo.toNat) := by ring
      _ = ((~~~hi).toNat + (hi.toNat + 1)) * 2 ^ w := by
        rw [hneg]
        ring
      _ = 2 ^ w * 2 ^ w := by rw [hnot]

end DoubleWord
