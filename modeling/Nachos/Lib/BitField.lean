import Mathlib.Data.Nat.Notation

/-!
# Masks and shifts on bit vectors

What C writes with masks, in the words of `BitVec`.

* `and_lowMask`: a mask of ones keeps the low bits.
* `signExtend_eq_or`: sign extension by hand.
* `sshiftRight_eq_ushiftRight_iff`: when the two right shifts agree.
-/

namespace BitField

variable {w : ℕ}

/-- Keeping the low `k` bits. -/
theorem and_lowMask (x : BitVec w) (k : ℕ) :
    x &&& (BitVec.allOnes k).setWidth w = (x.setWidth k).setWidth w := by
  apply BitVec.eq_of_getLsbD_eq
  intro j hj
  simp only [BitVec.getLsbD_and, BitVec.getLsbD_setWidth, BitVec.getLsbD_allOnes, hj, decide_true,
    Bool.true_and]
  exact Bool.and_comm ..

/-- Sign extension by hand: a one in the top bit is copied to all higher ones. -/
theorem signExtend_eq_or {k : ℕ} (x : BitVec k) :
    x.signExtend w =
      if x.msb then x.setWidth w ||| ~~~(BitVec.allOnes k).setWidth w else x.setWidth w := by
  cases hmsb : x.msb with
  | false => exact BitVec.signExtend_eq_setWidth_of_msb_false hmsb
  | true =>
    rw [if_pos rfl, BitVec.signExtend_eq_not_setWidth_not_of_msb_true hmsb]
    apply BitVec.eq_of_getLsbD_eq
    intro j hj
    rw [BitVec.getLsbD_not, BitVec.getLsbD_or, BitVec.getLsbD_not, BitVec.getLsbD_setWidth,
      BitVec.getLsbD_setWidth, BitVec.getLsbD_setWidth, BitVec.getLsbD_not, BitVec.getLsbD_allOnes]
    by_cases hk : j < k <;> simp [hj, hk]

/-- The two right shifts agree unless ones are shifted in. -/
theorem sshiftRight_eq_ushiftRight_iff (x : BitVec w) {n : ℕ} (hn : n < w) :
    x.sshiftRight n = x >>> n ↔ n = 0 ∨ x.msb = false := by
  constructor
  · intro h
    by_cases h0 : n = 0
    · exact Or.inl h0
    · have hmsb := congrArg BitVec.msb h
      rw [BitVec.msb_sshiftRight, BitVec.msb_ushiftRight] at hmsb
      exact Or.inr (by simpa [h0] using hmsb)
  · rintro (rfl | h)
    · simp
    · exact BitVec.sshiftRight_eq_of_msb_false h

/-- `x | y` adds nothing to `x` exactly if `y` has no bit of its own. -/
theorem or_eq_left_iff (x y : BitVec w) : x ||| y = x ↔ y &&& ~~~x = 0 := by
  constructor
  · intro h
    rw [← h, BitVec.not_or, ← BitVec.and_assoc, BitVec.and_comm y, BitVec.and_assoc]
    simp
  · intro h
    apply BitVec.eq_of_getLsbD_eq
    intro j hj
    have hbit := congrArg (BitVec.getLsbD · j) h
    simp only [BitVec.getLsbD_and, BitVec.getLsbD_not, hj, decide_true, Bool.true_and,
      BitVec.ofNat_eq_ofNat, BitVec.getLsbD_zero] at hbit
    rw [BitVec.getLsbD_or]
    revert hbit
    cases x.getLsbD j <;> cases y.getLsbD j <;> decide

end BitField
