import Nachos.Lib.DoubleWord
import Nachos.Cpu.MipsSim

/-!
# Multiplication

`Mult` of `machine/mipssim.cc` gives the exact product of 64 bits.

* The loop adds the multiples of `b` that the bits of `a` ask for.  With `turns` turns left it has
  still to see the last `turns` bits of `a`: what `>>` shifts in at the other end is not looked at.
* `multLoop_sum`: by induction on the turns, from what one turn does to the two double words.
* `mult_exact`: signed and unsigned products, from the product of the absolute values.
-/

namespace Nachos

open DoubleWord (value)

theorem topBit_ne_zero (x : BitVec 32) : x &&& 0x80000000 ≠ 0 ↔ x.msb = true := by
  rw [show (0x80000000 : BitVec 32) = BitVec.twoPow 32 31 from rfl, BitVec.and_twoPow,
    BitVec.msb_eq_getLsbD_last]
  cases x.getLsbD (32 - 1) <;> decide

namespace MultState

variable {s : MultState}

/-- The multiple of `b` that the next bit of `a` stands for. -/
def addend (s : MultState) : ℕ := value s.bHi s.bLo

/-- What has been added. -/
def sum (s : MultState) : ℕ := value s.hi s.lo

/-- What is added if the next bit of `a` is set. -/
def add (s : MultState) : MultState :=
  { s with
    lo := s.lo + s.bLo
    hi := (if s.lo + s.bLo < s.bLo then s.hi + 1 else s.hi) + s.bHi }

theorem sum_add (h : s.sum + s.addend < 2 ^ 64) : s.add.sum = s.sum + s.addend :=
  DoubleWord.value_add h

theorem addend_shift (h : 2 * s.addend < 2 ^ 64) : s.shift.addend = 2 * s.addend := by
  refine Eq.trans ?_ (DoubleWord.value_double (by decide) h)
  unfold addend shift
  simp only [topBit_ne_zero]
  rfl

end MultState

/-- The next bit of `a`. -/
theorem lowBit_ne_zero (a : BitVec 32) : a &&& 1 ≠ 0 ↔ a.toNat % 2 = 1 := by
  have hand : (a &&& 1).toNat = a.toNat % 2 := by
    rw [BitVec.toNat_and]
    exact Nat.and_one_is_mod _
  rw [Ne, ← BitVec.toNat_inj, hand]
  change ¬ a.toNat % 2 = 0 ↔ _
  omega

/-- The only bit of `a` that is left. -/
theorem eq_one_of_and {a : BitVec 32} (h : a &&& 0xfffffffe = 0) (h1 : a &&& 1 ≠ 0) : a = 1 := by
  have hsplit : a = (a &&& 0xfffffffe) ||| (a &&& 1) := by
    rw [← BitVec.and_or_distrib_left]
    exact (BitVec.and_allOnes).symm
  have hbit : a &&& 1 = 1 := by
    have hone := (lowBit_ne_zero a).1 h1
    refine BitVec.eq_of_toNat_eq ?_
    rw [BitVec.toNat_and]
    exact (Nat.and_one_is_mod _).trans hone
  rw [hsplit, h, hbit]
  rfl

/-- An arithmetic shift keeps the low bits, one place down. -/
theorem sshiftRight_mod (a : BitVec 32) {turns : ℕ} (h : turns < 32) :
    (a.sshiftRight 1).toNat % 2 ^ turns = a.toNat / 2 % 2 ^ turns := by
  have ha := a.isLt
  by_cases hmsb : a.msb = true
  · have htop : (a.sshiftRight 1).toNat = a.toNat / 2 + 2 ^ 31 := by
      rw [BitVec.sshiftRight_eq_of_msb_true hmsb, BitVec.toNat_not, BitVec.toNat_ushiftRight,
        BitVec.toNat_not, Nat.shiftRight_eq_div_pow]
      omega
    have hpow : 2 ^ turns ∣ 2 ^ 31 := Nat.pow_dvd_pow 2 (by omega)
    rw [htop, Nat.add_mod, Nat.mod_eq_zero_of_dvd hpow, Nat.add_zero, Nat.mod_mod]
  · rw [BitVec.sshiftRight_eq_of_msb_false (by simpa using hmsb), BitVec.toNat_ushiftRight,
      Nat.shiftRight_eq_div_pow, Nat.pow_one]

/-- **The loop adds the product of the bits it has still to see.** -/
theorem multLoop_sum (turns : ℕ) (s : MultState) (hturns : turns ≤ 32)
    (hb : s.addend < 2 ^ (64 - turns)) (hsum : s.sum + s.a.toNat % 2 ^ turns * s.addend < 2 ^ 64) :
    (multLoop turns s).sum = s.sum + s.a.toNat % 2 ^ turns * s.addend := by
  induction turns generalizing s with
  | zero =>
    rw [Nat.pow_zero, Nat.mod_one, Nat.zero_mul, Nat.add_zero]
    rfl
  | succ turns ih =>
    -- the next bit of `a`, and the others
    have hbits : s.a.toNat % 2 ^ (turns + 1) =
        s.a.toNat % 2 + 2 * (s.a.toNat / 2 % 2 ^ turns) := by
      rw [Nat.pow_succ', Nat.mod_mul]
    have hdouble : 2 * s.addend < 2 ^ (64 - turns) := by
      have hpow : 2 ^ (64 - turns) = 2 * 2 ^ (64 - (turns + 1)) := by
        rw [← Nat.pow_succ']
        congr 1
        omega
      omega
    have hfits : 2 * s.addend < 2 ^ 64 :=
      hdouble.trans_le (Nat.pow_le_pow_right (by decide) (Nat.sub_le _ _))
    have hshift := MultState.addend_shift hfits
    have hlow : (s.a.sshiftRight 1).toNat % 2 ^ turns = s.a.toNat / 2 % 2 ^ turns :=
      sshiftRight_mod s.a (by omega)
    rw [hbits] at hsum ⊢
    unfold multLoop
    by_cases hbit : s.a &&& 1 ≠ 0
    · have hone := (lowBit_ne_zero s.a).1 hbit
      rw [hone, Nat.add_mul, Nat.one_mul, Nat.mul_right_comm] at hsum ⊢
      have hadd : s.add.sum = s.sum + s.addend := MultState.sum_add (by omega)
      rw [if_pos hbit]
      change (if s.a &&& 0xfffffffe = 0 then s.add else multLoop turns s.add.shift).sum = _
      by_cases hlast : s.a &&& 0xfffffffe = 0
      · rw [if_pos hlast, hadd, eq_one_of_and hlast hbit]
        simp
      · have haddend : s.add.shift.addend = 2 * s.addend := hshift
        have hrest : (s.add.shift).sum = s.sum + s.addend := hadd
        have ha : s.add.shift.a = s.a.sshiftRight 1 := rfl
        rw [if_neg hlast, ih s.add.shift (by omega) (by rwa [haddend]) ?_, haddend, hrest, ha, hlow]
        · ring
        · rw [haddend, hrest, ha, hlow, ← Nat.mul_assoc, Nat.mul_comm _ 2, ← Nat.mul_right_comm]
          omega
    · have hzero : s.a.toNat % 2 = 0 := by
        have hne := (lowBit_ne_zero s.a).not.1 hbit
        omega
      rw [hzero, Nat.zero_add] at hsum ⊢
      have hrest : s.shift.sum = s.sum := rfl
      have ha : s.shift.a = s.a.sshiftRight 1 := rfl
      rw [if_neg hbit, ih s.shift (by omega) (by rwa [hshift]) ?_, hshift, hrest, ha, hlow]
      · ring
      · rw [hshift, hrest, ha, hlow, ← Nat.mul_assoc, Nat.mul_comm _ 2]
        exact hsum

/-- The product of two words, as the loop computes it. -/
theorem multLoop_product (a b : BitVec 32) :
    (multLoop 32 ⟨a, b, 0, 0, 0⟩).sum = a.toNat * b.toNat := by
  have ha := a.isLt
  have hb := b.isLt
  have haddend : MultState.addend ⟨a, b, 0, 0, 0⟩ = b.toNat := by
    simp [MultState.addend, value]
  have hsum : MultState.sum ⟨a, b, 0, 0, 0⟩ = 0 := by
    simp [MultState.sum, value]
  have hbits : a.toNat % 2 ^ 32 = a.toNat := Nat.mod_eq_of_lt ha
  have hproduct : a.toNat * b.toNat < 2 ^ 64 :=
    calc a.toNat * b.toNat < 2 ^ 32 * 2 ^ 32 := Nat.mul_lt_mul'' ha hb
      _ = 2 ^ 64 := by decide
  rw [multLoop_sum 32 _ le_rfl (by rw [haddend]; exact hb) (by rw [haddend, hsum, hbits]; omega),
    haddend, hsum, hbits, Nat.zero_add]

/-! ### The sign -/

/-- What `Mult` multiplies: the absolute value, as a word. -/
theorem toNat_abs (a : BitVec 32) : (if a.slt 0 then -a else a).toNat = a.toInt.natAbs := by
  have ha := a.isLt
  by_cases hneg : a.slt 0 = true
  · rw [if_pos hneg]
    have hlt : a.toInt < 0 := by simpa [BitVec.slt] using hneg
    rw [BitVec.toNat_neg]
    rw [BitVec.toInt_eq_toNat_cond] at hlt ⊢
    split_ifs at hlt ⊢ with hsmall
    · omega
    · rw [Nat.mod_eq_of_lt (by omega)]
      omega
  · rw [if_neg hneg]
    have hle : 0 ≤ a.toInt := by simpa [BitVec.slt] using hneg
    rw [BitVec.toInt_eq_toNat_cond] at hle ⊢
    split_ifs at hle ⊢ <;> omega

theorem natAbs_toInt_le (a : BitVec 32) : a.toInt.natAbs ≤ 2 ^ 31 := by
  have hle := BitVec.toInt_lt (x := a)
  have hge := BitVec.le_toInt a
  omega

/-- A small double word is read as it is. -/
theorem toInt_append {hi lo : BitVec 32} (h : value hi lo < 2 ^ 63) :
    (hi ++ lo).toInt = value hi lo := by
  rw [BitVec.toInt_eq_toNat_of_lt (by rw [DoubleWord.toNat_append]; omega),
    DoubleWord.toNat_append]

/-- The two's complement of a small double word is read as its negative. -/
theorem toInt_append_neg {hi lo hi' lo' : BitVec 32} (h : value hi lo < 2 ^ 63)
    (hpos : 0 < value hi lo) (hneg : value hi' lo' + value hi lo = 2 ^ 32 * 2 ^ 32) :
    (hi' ++ lo').toInt = -value hi lo := by
  have hnat := DoubleWord.toNat_append hi' lo'
  rw [BitVec.toInt_eq_toNat_cond, if_neg (by rw [hnat]; omega), hnat]
  push_cast
  omega

/-- The sign of a product. -/
theorem mul_neg_iff_slt {a b : BitVec 32} (ha : a ≠ 0) (hb : b ≠ 0) :
    (a.slt 0 ^^ b.slt 0) = true ↔ a.toInt * b.toInt < 0 := by
  have ha' : a.toInt ≠ 0 := fun h => ha (BitVec.eq_of_toInt_eq h)
  have hb' : b.toInt ≠ 0 := fun h => hb (BitVec.eq_of_toInt_eq h)
  have hslt : ∀ x : BitVec 32, x.slt 0 = decide (x.toInt < 0) := fun x => rfl
  rw [hslt, hslt, mul_neg_iff]
  by_cases hna : a.toInt < 0 <;> by_cases hnb : b.toInt < 0 <;> simp [hna, hnb] <;> omega

theorem mult_signed (a b : BitVec 32) :
    ((mult a b true).1 ++ (mult a b true).2).toInt = a.toInt * b.toInt := by
  unfold mult
  by_cases hzero : a = 0 ∨ b = 0
  · rw [if_pos hzero]
    rcases hzero with rfl | rfl <;> simp
  obtain ⟨ha, hb⟩ := not_or.1 hzero
  rw [if_neg hzero]
  simp only [Bool.true_and]
  -- the loop multiplies the absolute values
  have hproduct := multLoop_product (if a.slt 0 then -a else a) (if b.slt 0 then -b else b)
  rw [toNat_abs, toNat_abs, ← Int.natAbs_mul] at hproduct
  generalize multLoop 32 ⟨if a.slt 0 then -a else a, if b.slt 0 then -b else b, 0, 0, 0⟩ = s
    at hproduct ⊢
  have hvalue : value s.hi s.lo = (a.toInt * b.toInt).natAbs := hproduct
  have hsmall : value s.hi s.lo < 2 ^ 63 := by
    rw [hvalue, Int.natAbs_mul]
    calc a.toInt.natAbs * b.toInt.natAbs ≤ 2 ^ 31 * 2 ^ 31 :=
          Nat.mul_le_mul (natAbs_toInt_le a) (natAbs_toInt_le b)
      _ < 2 ^ 63 := by decide
  by_cases hneg : (a.slt 0 ^^ b.slt 0) = true
  · have hlt := (mul_neg_iff_slt ha hb).1 hneg
    have hpos : 0 < value s.hi s.lo := by omega
    rw [if_pos hneg]
    refine (toInt_append_neg hsmall hpos (DoubleWord.value_neg hpos)).trans ?_
    omega
  · have hge : 0 ≤ a.toInt * b.toInt := not_lt.1 fun hlt => hneg ((mul_neg_iff_slt ha hb).2 hlt)
    rw [if_neg hneg]
    refine (toInt_append hsmall).trans ?_
    omega

theorem mult_unsigned (a b : BitVec 32) :
    ((mult a b false).1 ++ (mult a b false).2).toNat = a.toNat * b.toNat := by
  unfold mult
  by_cases hzero : a = 0 ∨ b = 0
  · rw [if_pos hzero]
    rcases hzero with rfl | rfl <;> simp
  · rw [if_neg hzero]
    simp only [Bool.false_and, Bool.false_eq_true, if_false]
    rw [DoubleWord.toNat_append]
    exact multLoop_product a b

/-- **Multiplication is exact**, signed and unsigned. -/
theorem mult_exact (a b : BitVec 32) :
    ((mult a b true).1 ++ (mult a b true).2).toInt = a.toInt * b.toInt ∧
      ((mult a b false).1 ++ (mult a b false).2).toNat = a.toNat * b.toNat :=
  ⟨mult_signed a b, mult_unsigned a b⟩

/-- The smallest word, squared. -/
example : mult 0x80000000 0x80000000 true = (0x40000000, 0) := by decide +kernel

end Nachos
