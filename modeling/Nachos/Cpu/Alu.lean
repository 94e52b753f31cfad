import Nachos.Lib.BitField
import Nachos.Cpu.Restart

/-!
# The arithmetic and logical instructions

What MIPS-I asks of the instructions without memory, control flow or exceptions, and when the
simulator gives it.

* `aluSpec`: the destination and the value that the architecture defines, from the fields of the
  word.
* `execute_alu`: the switch sets that destination; OR ignores its second operand, and SRL and SRLV
  shift the sign in.
* `alu_correct_iff`: the result of an instruction is the architecture's exactly where neither shows.
-/

namespace Nachos

variable {c : Sizes}

/-! ### What the architecture defines -/

/-- The destination and the result of an instruction of the arithmetic and logical unit. -/
def aluSpec (word : BitVec 32) (r : Registers) : Option (Fin NumTotalRegs × BitVec 32) :=
  let rs := r (gp (bitField word 21 5))
  let rt := r (gp (bitField word 16 5))
  let toRt := gp (bitField word 16 5)
  let toRd := gp (bitField word 11 5)
  let imm := word.extractLsb' 0 16
  let sa := (word.extractLsb' 6 5).toNat
  let amount := (rs.extractLsb' 0 5).toNat
  match (decode word).opCode with
  | .addu => some (toRd, rs + rt)
  | .addiu => some (toRt, rs + imm.signExtend 32)
  | .subu => some (toRd, rs - rt)
  | .and => some (toRd, rs &&& rt)
  | .andi => some (toRt, rs &&& imm.zeroExtend 32)
  | .or => some (toRd, rs ||| rt)
  | .ori => some (toRt, rs ||| imm.zeroExtend 32)
  | .xor => some (toRd, rs ^^^ rt)
  | .xori => some (toRt, rs ^^^ imm.zeroExtend 32)
  | .nor => some (toRd, ~~~(rs ||| rt))
  | .sll => some (toRd, rt <<< sa)
  | .sllv => some (toRd, rt <<< amount)
  | .srl => some (toRd, rt >>> sa)
  | .srlv => some (toRd, rt >>> amount)
  | .sra => some (toRd, rt.sshiftRight sa)
  | .srav => some (toRd, rt.sshiftRight amount)
  | .slt => some (toRd, if rs.toInt < rt.toInt then 1 else 0)
  | .slti => some (toRt, if rs.toInt < (imm.signExtend 32).toInt then 1 else 0)
  | .sltu => some (toRd, if rs.toNat < rt.toNat then 1 else 0)
  | .sltiu => some (toRt, if rs.toNat < (imm.signExtend 32).toNat then 1 else 0)
  | .lui => some (toRt, imm ++ 0#16)
  | .mfhi => some (toRd, r HiReg)
  | .mflo => some (toRd, r LoReg)
  | .mthi => some (HiReg, rs)
  | .mtlo => some (LoReg, rs)
  | _ => none

/-- What reaches register `d` is not the result: it is R0, or the delayed load goes there. -/
def Exempt (r : Registers) (d : Fin NumTotalRegs) : Prop := d = 0 ∨ (d : ℕ) = (r LoadReg).toNat

/-- The registers `r'` are those that follow `r` if the result is `value` for `d`. -/
structure AluResult (r r' : Registers) (d : Fin NumTotalRegs) (value : BitVec 32) : Prop where
  result : ¬ Exempt r d → r' d = value
  others : ∀ i : Fin NumGPRegs, gp i ≠ d → (i : ℕ) ≠ (r LoadReg).toNat → r' (gp i) = r (gp i)
  pc : r' PCReg = r NextPCReg
  nextPC : r' NextPCReg = r NextPCReg + 4

/-! ### Decoding -/

theorem and_0xffff (x : BitVec 32) : x &&& 0xffff = (x.extractLsb' 0 16).setWidth 32 :=
  BitField.and_lowMask x 16

theorem toNat_and_0x1f (x : BitVec 32) : (x &&& 0x1f).toNat = (x.extractLsb' 0 5).toNat := by
  rw [show x &&& 0x1f = _ from BitField.and_lowMask x 5, BitVec.toNat_setWidth_of_le (by decide)]
  rfl

theorem decodeExtra_RFMT (value : BitVec 32) :
    (decodeExtra value .RFMT).toNat = (value.extractLsb' 6 5).toNat := by
  show ((value >>> 6) &&& 0x1f).toNat = _
  rw [toNat_and_0x1f, BitVec.extractLsb'_toNat, BitVec.extractLsb'_toNat, BitVec.toNat_ushiftRight]
  rfl

theorem decodeExtra_IFMT (value : BitVec 32) :
    decodeExtra value .IFMT = (value.extractLsb' 0 16).signExtend 32 := by
  show (if (value &&& 0xffff) &&& 0x8000 ≠ 0 then (value &&& 0xffff) ||| 0xffff0000
    else value &&& 0xffff) = _
  rw [and_0xffff, BitField.signExtend_eq_or]
  generalize value.extractLsb' 0 16 = imm
  have hmsb : (imm.setWidth 32 &&& 0x8000 ≠ 0) ↔ imm.msb = true := by
    rw [show (0x8000 : BitVec 32) = BitVec.twoPow 32 15 from rfl, BitVec.and_twoPow,
      BitVec.msb_eq_getLsbD_last, BitVec.getLsbD_setWidth]
    cases imm.getLsbD (16 - 1) <;> decide
  exact if_congr hmsb rfl rfl

/-- The opcodes with an immediate operand. -/
def immediateOps : List OpCode := [.addi, .addiu, .andi, .ori, .xori, .slti, .sltiu, .lui]

variable {word : BitVec 32} {r : Registers}

theorem decode_immediate (h : (decode word).opCode ∈ immediateOps) :
    (decode word).extra = (word.extractLsb' 0 16).signExtend 32 := by
  have hop : ∀ i : Fin 64, opTable[i].opCode ∈ immediateOps → opTable[i].format = .IFMT := by
    decide
  have hspecial : ∀ i : Fin 64, specialTable[i] ∉ immediateOps := by decide
  have hbcond : ∀ op ∈ [OpCode.bltz, .bgez, .bltzal, .bgezal, .unimp], op ∉ immediateOps := by
    decide
  rw [← decodeExtra_IFMT]
  refine congrArg (decodeExtra word) (hop (bitField word 26 6) ?_)
  have h' : decodeOpCode word opTable[bitField word 26 6].opCode ∈ immediateOps := h
  obtain ⟨hd, -, -⟩ | ⟨-, hd⟩ | hd := decodeOpCode_cases word opTable[bitField word 26 6].opCode
  · rwa [hd] at h'
  · rw [hd] at h'
    exact absurd h' (hspecial _)
  · exact absurd h' (hbcond _ hd)

/-- The opcodes with a shift amount in the word. -/
def shiftOps : List OpCode := [.sll, .srl, .sra]

theorem decode_shift (h : (decode word).opCode ∈ shiftOps) :
    (decode word).extra.toNat = (word.extractLsb' 6 5).toNat := by
  have hop : ∀ i : Fin 64, opTable[i].opCode ∉ shiftOps ∧
      (opTable[i].opCode = .special → opTable[i].format = .RFMT) := by decide
  have hbcond : ∀ op ∈ [OpCode.bltz, .bgez, .bltzal, .bgezal, .unimp], op ∉ shiftOps := by decide
  rw [← decodeExtra_RFMT]
  refine congrArg (fun f => (decodeExtra word f).toNat) ((hop (bitField word 26 6)).2 ?_)
  have h' : decodeOpCode word opTable[bitField word 26 6].opCode ∈ shiftOps := h
  obtain ⟨hd, -, -⟩ | ⟨hs, -⟩ | hd := decodeOpCode_cases word opTable[bitField word 26 6].opCode
  · rw [hd] at h'
    exact absurd h' (hop _).1
  · exact hs
  · exact absurd h' (hbcond _ hd)

/-! ### What the simulator computes -/

/-- How far SRL and SRLV shift. -/
def srlAmount (word : BitVec 32) (r : Registers) : ℕ :=
  if (decode word).opCode = .srl then (word.extractLsb' 6 5).toNat
  else ((r (gp (bitField word 21 5))).extractLsb' 0 5).toNat

/-- The operands for which the result is right: OR has no bit in its second operand alone, and SRL
and SRLV do not shift a sign bit. -/
def RightOperands (word : BitVec 32) (r : Registers) : Prop :=
  let rs := r (gp (bitField word 21 5))
  let rt := r (gp (bitField word 16 5))
  ((decode word).opCode = .or → rt &&& ~~~rs = 0) ∧
    ((decode word).opCode ∈ [.srl, .srlv] → srlAmount word r = 0 ∨ rt.msb = false)

theorem RightOperands.of_ne (h : (decode word).opCode ∉ [.or, .srl, .srlv]) :
    RightOperands word r := by
  simp only [List.mem_cons, List.not_mem_nil, or_false, not_or] at h
  refine ⟨fun hor => absurd hor h.1, fun hsrl => ?_⟩
  simp only [List.mem_cons, List.not_mem_nil, or_false] at hsrl
  exact absurd hsrl (not_or.2 h.2)

theorem rightOperands_or (h : (decode word).opCode = .or) :
    RightOperands word r ↔
      r (gp (bitField word 16 5)) &&& ~~~r (gp (bitField word 21 5)) = 0 := by
  refine ⟨fun hr => hr.1 h, fun hr => ⟨fun _ => hr, fun hsrl => ?_⟩⟩
  rw [h] at hsrl
  exact absurd hsrl (by decide)

theorem rightOperands_srl {n : ℕ} (h : (decode word).opCode ∈ [.srl, .srlv])
    (hn : srlAmount word r = n) (hlt : n < 32) :
    (r (gp (bitField word 16 5))).sshiftRight n = r (gp (bitField word 16 5)) >>> n ↔
      RightOperands word r := by
  rw [BitField.sshiftRight_eq_ushiftRight_iff _ hlt, ← hn]
  refine ⟨fun hr => ⟨fun hor => ?_, fun _ => hr⟩, fun hr => hr.2 h⟩
  rw [hor] at h
  exact absurd h (by decide)

theorem signExtend_and_0xffff (imm : BitVec 16) :
    imm.signExtend 32 &&& 0xffff = imm.setWidth 32 := by
  rw [show imm.signExtend 32 &&& 0xffff = _ from BitField.and_lowMask _ 16]
  congr 1
  apply BitVec.eq_of_getLsbD_eq
  intro j hj
  rw [BitVec.getLsbD_setWidth, BitVec.getLsbD_signExtend, if_pos hj]
  simp [hj, hj.trans (show 16 < 32 by decide)]

theorem signExtend_shiftLeft (imm : BitVec 16) : imm.signExtend 32 <<< 16 = imm ++ 0#16 := by
  apply BitVec.eq_of_getLsbD_eq
  intro j hj
  rw [BitVec.getLsbD_append, BitVec.getLsbD_shiftLeft, BitVec.getLsbD_signExtend]
  by_cases hlow : j < 16
  · simp [hlow]
  · simp [hlow, hj, show j - 16 < 16 by omega, show j - 16 < 32 by omega]

/-- The switch puts a value in the destination that the architecture names. -/
theorem execute_alu {value : BitVec 32} {m : Machine c} {d : Fin NumTotalRegs}
    (h : aluSpec word m.registers = some (d, value)) :
    ∃ u, m.execute (decode word) = .ok (m.put d u) ∧
      (u = value ↔ RightOperands word m.registers) := by
  have himm := @decode_immediate word
  have hsa := @decode_shift word
  have hright := @RightOperands.of_ne word m.registers
  have hor := @rightOperands_or word m.registers
  have hsrl := @rightOperands_srl word m.registers
  unfold srlAmount at hsrl
  unfold aluSpec at h
  unfold Machine.execute
  generalize (decode word).opCode = op at *
  cases op with
  | addu | subu | and | xor | nor | mfhi | mflo | mthi | mtlo =>
    cases h
    exact ⟨_, rfl, iff_of_true rfl (hright (by decide))⟩
  | addiu =>
    cases h
    exact ⟨_, rfl, iff_of_true (congrArg _ (himm (by decide))) (hright (by decide))⟩
  | andi | ori | xori =>
    cases h
    refine ⟨_, rfl, iff_of_true ?_ (hright (by decide))⟩
    rw [himm (by decide), signExtend_and_0xffff]
    rfl
  | lui =>
    cases h
    refine ⟨_, rfl, iff_of_true ?_ (hright (by decide))⟩
    rw [himm (by decide), signExtend_shiftLeft]
  | slt | sltu =>
    cases h
    exact ⟨_, rfl, iff_of_true (if_congr decide_eq_true_iff rfl rfl) (hright (by decide))⟩
  | slti | sltiu =>
    cases h
    refine ⟨_, rfl, iff_of_true ?_ (hright (by decide))⟩
    rw [himm (by decide)]
    exact if_congr decide_eq_true_iff rfl rfl
  | sll | sra =>
    cases h
    refine ⟨_, rfl, iff_of_true ?_ (hright (by decide))⟩
    rw [hsa (by decide)]
    rfl
  | sllv | srav =>
    cases h
    refine ⟨_, rfl, iff_of_true ?_ (hright (by decide))⟩
    rw [toNat_and_0x1f]
    rfl
  | or =>
    cases h
    refine ⟨_, rfl, ?_⟩
    rw [hor rfl, BitVec.or_self, ← BitField.or_eq_left_iff]
    exact eq_comm
  | srl =>
    cases h
    refine ⟨_, rfl, ?_⟩
    rw [hsa (by decide)]
    exact hsrl (by decide) (if_pos rfl) (BitVec.isLt _)
  | srlv =>
    cases h
    refine ⟨_, rfl, ?_⟩
    rw [toNat_and_0x1f]
    exact hsrl (by decide) (if_neg (by decide)) (BitVec.isLt _)
  | _ => cases h

theorem aluSpec_lt {value : BitVec 32} {d : Fin NumTotalRegs}
    (h : aluSpec word r = some (d, value)) : d < PCReg := by
  have hgp : ∀ i : Fin NumGPRegs, gp i < PCReg := by decide
  unfold aluSpec at h
  dsimp only at h
  split at h <;> cases h <;> first | exact hgp _ | decide

/-! ### The instruction -/

section

variable {m m₁ : Machine c} {d : Fin NumTotalRegs} {u value : BitVec 32}

theorem put_special (hd : d < PCReg) {i : Fin NumTotalRegs} (hi : PCReg ≤ i) :
    (m.put d u).machine.registers i = m.registers i :=
  Machine.setReg_of_ne (ne_of_gt (hd.trans_le hi)) ..

theorem put_loaded (hd : d < PCReg) (i : Fin NumTotalRegs) :
    (m.put d u).machine.registers.loaded i =
      if (i : ℕ) = (m.registers LoadReg).toNat then m.registers LoadValueReg
      else (m.put d u).machine.registers i := by
  unfold Registers.loaded
  rw [put_special hd (by decide), put_special hd (by decide)]

theorem finish_put_result (hd : d < PCReg) (h : Machine.finish (m.put d u) = .ok m₁)
    (hex : ¬ Exempt m.registers d) : m₁.registers d = u := by
  have hnot : ∀ d : Fin NumTotalRegs, d < PCReg → d ≠ 0 → d ∉ endRegisters := by decide
  rw [Machine.finish_loaded h (hnot d hd fun h0 => hex (Or.inl h0)), put_loaded hd,
    if_neg fun hl => hex (Or.inr hl)]
  exact Machine.setReg_self ..

theorem finish_put_other (hd : d < PCReg) (h : Machine.finish (m.put d u) = .ok m₁)
    {i : Fin NumGPRegs} (hi : gp i ≠ d) (hl : (i : ℕ) ≠ (m.registers LoadReg).toNat)
    (h0 : i ≠ 0) : m₁.registers (gp i) = m.registers (gp i) := by
  have hnot : ∀ i : Fin NumGPRegs, i ≠ 0 → gp i ∉ endRegisters := by decide
  rw [Machine.finish_loaded h (hnot i h0), put_loaded hd,
    if_neg (show ¬ ((gp i : Fin NumTotalRegs) : ℕ) = _ from hl)]
  exact Machine.setReg_of_ne hi ..

theorem finish_put_pc (hd : d < PCReg) (h : Machine.finish (m.put d u) = .ok m₁) :
    m₁.registers PCReg = m.registers NextPCReg ↔
      ((m.registers LoadReg).toNat = NextPCReg →
        m.registers LoadValueReg = m.registers NextPCReg) := by
  obtain ⟨-, -, -, -, hpc, -⟩ := Machine.finish_registers h
  rw [hpc, put_loaded hd, put_special hd (by decide)]
  by_cases hl : ((NextPCReg : Fin NumTotalRegs) : ℕ) = (m.registers LoadReg).toNat
  · rw [if_pos hl]
    exact ⟨fun hv _ => hv, fun hv => hv hl.symm⟩
  · rw [if_neg hl]
    exact iff_of_true rfl fun hv => absurd hv.symm hl

/-- The result is right exactly if the value is, R0 was 0 or is meant to change, and the pending
load does not go to the program counter. -/
theorem finish_put_iff (hd : d < PCReg) (h : Machine.finish (m.put d u) = .ok m₁) :
    AluResult m.registers m₁.registers d value ↔
      (Exempt m.registers d ∨ u = value) ∧
      (m.registers 0 = 0 ∨ d = 0 ∨ (m.registers LoadReg).toNat = 0) ∧
      ((m.registers LoadReg).toNat = NextPCReg →
        m.registers LoadValueReg = m.registers NextPCReg) := by
  obtain ⟨hzero, -, -, hnext, -, -⟩ := Machine.finish_registers h
  rw [← finish_put_pc hd h]
  constructor
  · rintro ⟨hres, hoth, hpc, -⟩
    refine ⟨?_, ?_, hpc⟩
    · by_cases hex : Exempt m.registers d
      · exact Or.inl hex
      · exact Or.inr ((finish_put_result hd h hex).symm.trans (hres hex))
    · by_cases h0 : d = 0
      · exact Or.inr (Or.inl h0)
      by_cases hl : (m.registers LoadReg).toNat = 0
      · exact Or.inr (Or.inr hl)
      · exact Or.inl ((hoth 0 (Ne.symm h0) (Ne.symm hl)).symm.trans hzero)
  · rintro ⟨hval, h0, hpc⟩
    refine ⟨fun hex => ?_, fun i hi hl => ?_, hpc, ?_⟩
    · exact (finish_put_result hd h hex).trans (hval.resolve_left hex)
    · by_cases hi0 : i = 0
      · subst hi0
        have hr0 : m.registers 0 = 0 :=
          h0.resolve_right fun hno => hno.elim (fun hd0 => hi hd0.symm) fun hl0 => hl hl0.symm
        exact hzero.trans hr0.symm
      · exact finish_put_other hd h hi hl hi0
    · rw [hnext]
      exact congrArg (· + 4) (put_special hd (by decide))

end

/-- When an instruction with destination `d` comes out as the architecture says. -/
structure AluRight (word : BitVec 32) (r : Registers) (d : Fin NumTotalRegs) : Prop where
  operands : Exempt r d ∨ RightOperands word r
  load : (r LoadReg).toNat < NumTotalRegs
  zero : r 0 = 0 ∨ d = 0 ∨ (r LoadReg).toNat = 0
  nextPC : (r LoadReg).toNat = NextPCReg → r LoadValueReg = r NextPCReg

/-- **The arithmetic and logical instructions compute the MIPS-I result exactly for the operands of
`RightOperands`**, in every register file whose R0 is 0 and whose pending load goes to a register
other than the program counter, and in few others. -/
theorem alu_correct_iff {m m' : Machine c} {word value : BitVec 32} {d : Fin NumTotalRegs}
    (hfetch : m.readMem (m.registers PCReg) 4 = .ok (word, m'))
    (hspec : aluSpec word m.registers = some (d, value)) :
    (∃ m₁, m.oneInstruction = .ok m₁ ∧ AluResult m.registers m₁.registers d value) ↔
      AluRight word m.registers d := by
  have hd := aluSpec_lt hspec
  obtain ⟨tr, rfl⟩ := m.readMem_translated hfetch
  have hspec' : aluSpec word ({ m with translation := tr } : Machine c).registers =
    some (d, value) := hspec
  obtain ⟨u, hex, hu⟩ := execute_alu hspec'
  have hone : m.oneInstruction =
      Machine.finish (({ m with translation := tr } : Machine c).put d u) := by
    rw [oneInstruction_of_execute hfetch, hex]
    rfl
  rw [hone]
  constructor
  · rintro ⟨m₁, hm₁, hres⟩
    obtain ⟨hval, h0, hpc⟩ := (finish_put_iff hd hm₁).1 hres
    obtain ⟨m₂, hload, -⟩ := Machine.finish_ok hm₁
    obtain ⟨hlt, -⟩ := Machine.delayedLoad_ok hload
    refine ⟨hval.imp_right hu.1, ?_, h0, hpc⟩
    rwa [put_special hd (by decide)] at hlt
  · rintro ⟨hval, hlt, h0, hpc⟩
    obtain ⟨m₁, hm₁⟩ := Machine.finish_exists
      (e := ({ m with translation := tr } : Machine c).put d u)
      (by rwa [put_special hd (by decide)])
    exact ⟨m₁, hm₁, (finish_put_iff hd hm₁).2 ⟨hval.imp_right hu.2, h0, hpc⟩⟩

/-- r1 and r2 hold the operands, and nothing is on its way to a register. -/
def operandRegisters (r1 r2 : BitVec 32) : Registers :=
  Function.update (Function.update (fun _ => 0) 1 r1) 2 r2

/-- `or r3, r1, r2` where r1 has all the bits. -/
theorem alu_correct_iff_or :
    AluRight 0x00221825 (operandRegisters 3 1) 3 ∧
      ∃ m₁, (wordMachine (operandRegisters 3 1) 0x00221825).oneInstruction = .ok m₁ ∧
        AluResult (operandRegisters 3 1) m₁.registers 3 3 := by
  have hright : AluRight 0x00221825 (operandRegisters 3 1) 3 :=
    ⟨Or.inr ⟨fun _ => by decide, fun h => absurd h (by decide)⟩, by decide, Or.inl rfl,
      fun h => absurd h (by decide)⟩
  exact ⟨hright, (alu_correct_iff (m := wordMachine (operandRegisters 3 1) 0x00221825)
    (d := 3) rfl (by decide)).2 hright⟩

/-- `or r3, r1, r2` with 0 and 1 gives 0; `srl r3, r1, 1` and `srlv r3, r1, r2` of -2³¹ by 1 give
-2³⁰. -/
theorem alu_wrong :
    (∃ m₁, (wordMachine (operandRegisters 0 1) 0x00221825).oneInstruction = .ok m₁ ∧
      aluSpec 0x00221825 (operandRegisters 0 1) = some (3, 1) ∧ m₁.registers 3 = 0) ∧
    (∃ m₁, (wordMachine (operandRegisters 0x80000000 1) 0x00011842).oneInstruction = .ok m₁ ∧
      aluSpec 0x00011842 (operandRegisters 0x80000000 1) = some (3, 0x40000000) ∧
      m₁.registers 3 = 0xc0000000) ∧
    ∃ m₁, (wordMachine (operandRegisters 0x80000000 1) 0x00411806).oneInstruction = .ok m₁ ∧
      aluSpec 0x00411806 (operandRegisters 0x80000000 1) = some (3, 0x40000000) ∧
      m₁.registers 3 = 0xc0000000 :=
  ⟨⟨_, rfl, by decide, by decide⟩, ⟨_, rfl, by decide, by decide⟩, _, rfl, by decide, by decide⟩

end Nachos
