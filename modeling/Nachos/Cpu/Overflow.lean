import Nachos.Cpu.Alu
import Nachos.Cpu.Mult

/-!
# Overflow

ADD, ADDI and SUB raise `OverflowException` exactly when the sum or the difference of the operands,
as integers, is not a word.

* `add_overflow_iff`, `sub_overflow_iff`: what the three tests of sign bits say.
* `execute_exact`: the switch raises the exception or sets the destination.
* `overflow_trapped`: the instruction as a whole.
-/

namespace Nachos

variable {c : Sizes}

/-- The integers that a word holds. -/
def Fits (n : ℤ) : Prop := -2 ^ 31 ≤ n ∧ n < 2 ^ 31
  deriving Decidable

/-- The destination and the exact result of ADD, ADDI and SUB. -/
def exactResult (word : BitVec 32) (r : Registers) : Option (Fin NumTotalRegs × ℤ) :=
  let rs := r (gp (bitField word 21 5))
  let rt := r (gp (bitField word 16 5))
  match (decode word).opCode with
  | .add => some (gp (bitField word 11 5), rs.toInt + rt.toInt)
  | .addi => some (gp (bitField word 16 5),
      rs.toInt + ((word.extractLsb' 0 16).signExtend 32).toInt)
  | .sub => some (gp (bitField word 11 5), rs.toInt - rt.toInt)
  | _ => none

/-! ### The sign bits -/

theorem signBit_ne_zero (x y : BitVec 32) :
    (x ^^^ y) &&& SIGN_BIT ≠ 0 ↔ (x.toInt < 0 ↔ ¬ y.toInt < 0) := by
  rw [show SIGN_BIT = 0x80000000 from rfl, topBit_ne_zero, BitVec.msb_xor, BitVec.msb_eq_toInt,
    BitVec.msb_eq_toInt]
  by_cases hx : x.toInt < 0 <;> by_cases hy : y.toInt < 0 <;> simp [hx, hy]

/-- The operands have the same sign, and the sum has another. -/
theorem add_overflow_iff (x y : BitVec 32) :
    ((x ^^^ y) &&& SIGN_BIT = 0 ∧ (x ^^^ (x + y)) &&& SIGN_BIT ≠ 0) ↔
      ¬ Fits (x.toInt + y.toInt) := by
  have hx := x.isLt
  have hy := y.isLt
  have hsum := BitVec.toNat_add x y
  rw [← not_not (a := (x ^^^ y) &&& SIGN_BIT = 0), ← Ne, signBit_ne_zero, signBit_ne_zero]
  unfold Fits
  rw [BitVec.toInt_eq_toNat_cond x, BitVec.toInt_eq_toNat_cond y,
    BitVec.toInt_eq_toNat_cond (x + y)]
  split_ifs <;> omega

/-- The operands have different signs, and the difference has not that of the first. -/
theorem sub_overflow_iff (x y : BitVec 32) :
    ((x ^^^ y) &&& SIGN_BIT ≠ 0 ∧ (x ^^^ (x - y)) &&& SIGN_BIT ≠ 0) ↔
      ¬ Fits (x.toInt - y.toInt) := by
  have hx := x.isLt
  have hy := y.isLt
  have hdiff := BitVec.toNat_sub x y
  rw [signBit_ne_zero, signBit_ne_zero]
  unfold Fits
  rw [BitVec.toInt_eq_toNat_cond x, BitVec.toInt_eq_toNat_cond y,
    BitVec.toInt_eq_toNat_cond (x - y)]
  split_ifs <;> omega

theorem toInt_ofInt_fits {n : ℤ} (h : Fits n) : (BitVec.ofInt 32 n).toInt = n := by
  obtain ⟨hlow, hhigh⟩ := h
  rw [BitVec.toInt_ofInt]
  exact Int.bmod_eq_of_le (by omega) (by omega)

/-! ### The instruction -/

/-- **The switch raises the exception, or the destination gets the exact result.** -/
theorem execute_exact {word : BitVec 32} {m : Machine c} {d : Fin NumTotalRegs} {n : ℤ}
    (h : exactResult word m.registers = some (d, n)) :
    m.execute (decode word) = if Fits n then .ok (m.put d (BitVec.ofInt 32 n))
      else m.raiseException .overflowException 0 := by
  have hrs : (decode word).rs = bitField word 21 5 := rfl
  have hrt : (decode word).rt = bitField word 16 5 := rfl
  have hrd : (decode word).rd = bitField word 11 5 := rfl
  unfold exactResult at h
  unfold Machine.execute
  dsimp only at h ⊢
  rw [hrs, hrt, hrd]
  generalize m.registers (gp (bitField word 21 5)) = x at h ⊢
  generalize hy : m.registers (gp (bitField word 16 5)) = y at h ⊢
  cases hop : (decode word).opCode with
  | add =>
    rw [hop] at h
    cases h
    dsimp only
    rw [if_congr (add_overflow_iff x y) rfl rfl, ite_not, BitVec.ofInt_add, BitVec.ofInt_toInt,
      BitVec.ofInt_toInt]
  | addi =>
    rw [decode_immediate (by rw [hop]; decide)]
    rw [hop] at h
    cases h
    generalize (word.extractLsb' 0 16).signExtend 32 = z
    dsimp only
    rw [BitVec.xor_comm x z, BitVec.add_comm x z, Int.add_comm x.toInt,
      if_congr (add_overflow_iff z x) rfl rfl, ite_not, BitVec.ofInt_add, BitVec.ofInt_toInt,
      BitVec.ofInt_toInt]
  | sub =>
    rw [hop] at h
    cases h
    dsimp only
    rw [if_congr (sub_overflow_iff x y) rfl rfl, ite_not, Int.sub_eq_add_neg, BitVec.ofInt_add,
      BitVec.ofInt_neg, BitVec.ofInt_toInt, BitVec.ofInt_toInt, ← BitVec.sub_eq_add_neg]
  | _ =>
    rw [hop] at h
    cases h

theorem Machine.raiseException_bind {α β : Type} {which : ExceptionType} {badVAddr : BitVec 32}
    {m : Machine c} (f : α → Except (Trap c) β) :
    m.raiseException which badVAddr >>= f = m.raiseException which badVAddr := by
  unfold raiseException
  cases (m.setReg BadVAddrReg badVAddr).delayedLoad 0 0 <;> rfl

theorem Machine.raiseException_exists {α : Type} {which : ExceptionType} {badVAddr : BitVec 32}
    {m : Machine c} (hlt : (m.registers LoadReg).toNat < NumTotalRegs) :
    ∃ m₁, m.raiseException which badVAddr = (.error (.raised which m₁) : Except (Trap c) α) := by
  unfold raiseException
  cases hd : (m.setReg BadVAddrReg badVAddr).delayedLoad 0 0 with
  | ok m₁ => exact ⟨m₁, rfl⟩
  | error t =>
    have hle := (delayedLoad_error hd).2
    rw [setReg_of_ne (by decide)] at hle
    omega

theorem exactResult_lt {word : BitVec 32} {r : Registers} {d : Fin NumTotalRegs} {n : ℤ}
    (h : exactResult word r = some (d, n)) : d < PCReg := by
  have hgp : ∀ i : Fin NumGPRegs, gp i < PCReg := by decide
  unfold exactResult at h
  dsimp only at h
  split at h <;> cases h <;> exact hgp _

/-- **Overflow is trapped exactly when it happens.**  `RaiseException(OverflowException, 0)` is
called if and only if the exact result is not a word.  When the handler is entered, the destination
is as it was, with the delayed load applied, and R0 is 0; when the instruction completes, the
destination holds the exact result, unless it is R0 or the delayed load goes there. -/
theorem overflow_trapped {m m' : Machine c} {word : BitVec 32} {d : Fin NumTotalRegs} {n : ℤ}
    (hfetch : m.readMem (m.registers PCReg) 4 = .ok (word, m'))
    (hspec : exactResult word m.registers = some (d, n)) :
    (m'.execute (decode word) = m'.raiseException .overflowException 0 ↔ ¬ Fits n) ∧
    (∀ m₁, m.oneInstruction = .error (.raised .overflowException m₁) →
      ¬ Fits n ∧ (d ≠ 0 → m₁.registers d = m.registers.loaded d) ∧ m₁.registers 0 = 0) ∧
    (∀ m₁, m.oneInstruction = .ok m₁ →
      Fits n ∧ (¬ Exempt m.registers d → (m₁.registers d).toInt = n)) ∧
    ((m.registers LoadReg).toNat < NumTotalRegs →
      (¬ Fits n → ∃ m₁, m.oneInstruction = .error (.raised .overflowException m₁)) ∧
      (Fits n → ∃ m₁, m.oneInstruction = .ok m₁)) := by
  have hd := exactResult_lt hspec
  obtain ⟨tr, rfl⟩ := m.readMem_translated hfetch
  have hspec' : exactResult word ({ m with translation := tr } : Machine c).registers =
    some (d, n) := hspec
  have hexec := execute_exact hspec'
  have hone := oneInstruction_of_execute hfetch
  rw [hexec] at hone
  by_cases hfits : Fits n
  · rw [if_pos hfits] at hexec hone
    change m.oneInstruction = Machine.finish _ at hone
    refine ⟨iff_of_false (fun heq => ?_) (not_not.2 hfits), fun m₁ h => ?_, fun m₁ h => ?_,
      fun hlt => ⟨absurd hfits, fun _ => ?_⟩⟩
    · exact Machine.raiseException_ne_ok (heq.symm.trans hexec)
    · rw [hone] at h
      obtain ⟨h, -⟩ := Machine.finish_error h
      cases h
    · rw [hone] at h
      refine ⟨hfits, fun hex => ?_⟩
      rw [finish_put_result hd h hex]
      exact toInt_ofInt_fits hfits
    · obtain ⟨m₁, hm₁⟩ := Machine.finish_exists
        (e := ({ m with translation := tr } : Machine c).put d (BitVec.ofInt 32 n))
        (by rwa [put_special hd (by decide)])
      exact ⟨m₁, hone.trans hm₁⟩
  · rw [if_neg hfits] at hexec hone
    rw [Machine.raiseException_bind] at hone
    refine ⟨iff_of_true hexec hfits, fun m₁ h => ⟨hfits, fun h0 => ?_, ?_⟩, fun m₁ h => ?_,
      fun hlt => ⟨fun _ => ?_, fun h => absurd h hfits⟩⟩
    · have hnot : ∀ d : Fin NumTotalRegs, d < PCReg → d ≠ 0 →
          d ∉ BadVAddrReg :: loadRegisters := by decide
      exact (oneInstruction_raised h).2.loaded d (hnot d hd h0)
    · exact (oneInstruction_raised h).2.zero
    · exact absurd (hone.symm.trans h) Machine.raiseException_ne_ok
    · obtain ⟨m₁, hm₁⟩ := Machine.raiseException_exists
        (m := ({ m with translation := tr } : Machine c)) hlt
      exact ⟨m₁, hone.trans hm₁⟩

/-- `add r3, r1, r2` of the largest word and 1. -/
theorem overflow_trapped_add :
    ¬ Fits (2147483647 + 1) ∧
      ∃ m₁, (wordMachine (operandRegisters 0x7fffffff 1) 0x00221820).oneInstruction =
        .error (.raised .overflowException m₁) ∧ m₁.registers 3 = 0 := by
  obtain ⟨-, hraised, -, hends⟩ := overflow_trapped
    (m := wordMachine (operandRegisters 0x7fffffff 1) 0x00221820) (d := 3)
    (n := 2147483647 + 1) rfl (by decide)
  obtain ⟨m₁, hm₁⟩ := (hends (by decide)).1 (by decide)
  exact ⟨by decide, m₁, hm₁, (hraised m₁ hm₁).2.1 (by decide)⟩

/-- `add r0, r1, r2` leaves 0 in R0; and if a load is on its way to r3, `add r3, r1, r1` leaves the
loaded value there. -/
theorem result_not_kept :
    (∃ m₁, exactResult 0x00220020 (operandRegisters 1 2) = some (0, 3) ∧
      (wordMachine (operandRegisters 1 2) 0x00220020).oneInstruction = .ok m₁ ∧
      m₁.registers 0 = 0) ∧
    ∃ m₁, exactResult 0x00211820 loadingRegisters = some (3, 14) ∧
      (wordMachine loadingRegisters 0x00211820).oneInstruction = .ok m₁ ∧
      m₁.registers 3 = 5 :=
  ⟨⟨_, by decide, rfl, by decide⟩, _, by decide, rfl, by decide⟩

end Nachos
