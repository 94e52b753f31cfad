import Nachos.Cpu.Outcomes

/-!
# How an instruction ends

Every 32-bit word is an instruction for the simulator.  It completes or raises an exception, but for
a partial word at an address that is not a multiple of four, and for the one quotient that does not
fit.

* `decode_handled`: the `default` of the switch is not reached.
-/

namespace Nachos

variable {c : Sizes}

/-- `Decode` gives an opcode for which the switch has a case. -/
theorem decode_handled (value : BitVec 32) :
    (decode value).opCode ∉ [OpCode.rfe, .special, .bcond] := by
  have hop : ∀ i : Fin 64, opTable[i].opCode ≠ .rfe := by decide
  have hspecial : ∀ i : Fin 64, specialTable[i] ∉ [OpCode.rfe, .special, .bcond] := by decide
  have hbcond : ∀ op ∈ [OpCode.bltz, .bgez, .bltzal, .bgezal, .unimp],
      op ∉ [OpCode.rfe, .special, .bcond] := by decide
  show decodeOpCode value opTable[bitField value 26 6].opCode ∉ _
  obtain ⟨h, hs, hb⟩ | ⟨-, h⟩ | h := decodeOpCode_cases value opTable[bitField value 26 6].opCode
  · rw [h]
    have hr := hop (bitField value 26 6)
    simpa only [List.mem_cons, List.not_mem_nil, or_false, not_or] using ⟨hr, hs, hb⟩
  · rw [h]
    exact hspecial _
  · exact hbcond _ h

/-- The operation on a partial word that `instr` is would not start at its first byte. -/
def UnalignedPartial (instr : Instruction) (m : Machine c) : Prop :=
  instr.opCode ∈ [.lwl, .lwr, .swl, .swr] ∧
    (m.registers (gp instr.rs) + instr.extra) &&& 3 ≠ 0

/-- The instruction divides -2³¹ by -1. -/
def DivOverflow (instr : Instruction) (m : Machine c) : Prop :=
  instr.opCode = .div ∧ m.registers (gp instr.rs) = .intMin 32 ∧ m.registers (gp instr.rt) = -1

/-- A machine with one page, whose first word is `word`; `pc` is 0 unless `r` says otherwise. -/
def wordMachine (r : Registers) (word : BitVec 32) : Machine machineH where
  registers := r
  mainMemory := storeBytes (fun _ => 0) 0 4 word
  translation := .pageTable [⟨0, 0, true, false, false, false⟩]

theorem oneInstruction_of_execute {m m' : Machine c} {raw : BitVec 32}
    (hr : m.readMem (m.registers PCReg) 4 = .ok (raw, m')) :
    m.oneInstruction = m'.execute (decode raw) >>= Machine.finish := by
  unfold Machine.oneInstruction
  rw [hr]
  rfl

theorem execute_unaligned {instr : Instruction} {m : Machine c} (h : UnalignedPartial instr m) :
    m.execute instr = .error (.crash .partialWord) := by
  obtain ⟨hop, h⟩ := h
  obtain ⟨op, rs, rt, rd, extra⟩ := instr
  simp only [List.mem_cons, List.not_mem_nil, or_false] at hop
  rcases hop with rfl | rfl | rfl | rfl <;> exact if_pos h

/-- **A user instruction stops the simulator in two cases only**: a partial word that does not
start at a multiple of four, which the source asserts against, and the division of -2³¹ by -1,
about which nothing is said here. -/
theorem instruction_completes_or_raises (m : Machine c)
    (hload : (m.registers LoadReg).toNat < NumGPRegs) :
    (∀ value, (decode value).opCode ∉ [OpCode.rfe, .special, .bcond]) ∧
    (∀ raw m', m.readMem (m.registers PCReg) 4 = .ok (raw, m') → UnalignedPartial (decode raw) m →
      m.oneInstruction = .error (.crash .partialWord)) ∧
    ((∀ raw m', m.readMem (m.registers PCReg) 4 = .ok (raw, m') →
        ¬ UnalignedPartial (decode raw) m ∧ ¬ DivOverflow (decode raw) m) →
      (∃ m', m.oneInstruction = .ok m') ∨
        ∃ which ∈ definedExceptions, ∃ m₁, m.oneInstruction = .error (.raised which m₁)) := by
  refine ⟨decode_handled, fun raw m' hr hun => ?_, fun hno => ?_⟩
  · obtain ⟨tr, rfl⟩ := m.readMem_translated hr
    have hun' : UnalignedPartial (decode raw) { m with translation := tr } := hun
    rw [oneInstruction_of_execute hr, execute_unaligned hun']
    rfl
  · have hout := oneInstruction_ends m
    match hm : m.oneInstruction with
    | .ok m' => exact Or.inl ⟨m', rfl⟩
    | .error (.raised which m₁) =>
      rw [hm] at hout
      exact Or.inr ⟨which, hout.1, m₁, rfl⟩
    | .error (.crash e) =>
      rw [hm] at hout
      exfalso
      rcases hout with ⟨-, hle⟩ | ⟨raw, m', hr, hcr⟩
      · unfold NumGPRegs NumTotalRegs at *
        omega
      · cases hcr with
        | wildLoad hle =>
          unfold NumGPRegs NumTotalRegs at *
          omega
        | partialWord hop h => exact (hno raw m' hr).1 ⟨hop, h⟩
        | hostDivision hop hs ht => exact (hno raw m' hr).2 ⟨hop, hs, ht⟩
        | badOpCode hop => exact decode_handled raw hop

/-- r1 holds -2³¹ and r2 holds 2. -/
def divRegisters : Registers := Function.update (Function.update (fun _ => 0) 1 (.intMin 32)) 2 2

/-- `div r1, r2` divides -2³¹ and completes; `lw r3, 2(r1)` reads a word that is not aligned. -/
theorem instruction_completes_or_raises_div :
    (divRegisters LoadReg).toNat < NumGPRegs ∧
    (∃ m', (wordMachine divRegisters 0x0022001a).oneInstruction = .ok m') ∧
    ∃ which ∈ definedExceptions, ∃ m₁,
      (wordMachine divRegisters 0x8c230002).oneInstruction = .error (.raised which m₁) := by
  refine ⟨by decide, ?_, ?_⟩
  · refine ((instruction_completes_or_raises _ (by decide)).2.2
      fun raw m' hr => ?_).resolve_right ?_
    · obtain rfl : 0x0022001a#32 = raw := congrArg Prod.fst (Except.ok.inj hr)
      exact ⟨fun h => absurd h.1 (by decide), fun h => absurd h.2.2 (by decide)⟩
    · rintro ⟨which, -, m₁, h⟩
      exact Bool.noConfusion (congrArg Except.isOk h)
  · refine ((instruction_completes_or_raises _ (by decide)).2.2
      fun raw m' hr => ?_).resolve_left ?_
    · obtain rfl : 0x8c230002#32 = raw := congrArg Prod.fst (Except.ok.inj hr)
      exact ⟨fun h => absurd h.1 (by decide), fun h => absurd h.1 (by decide)⟩
    · rintro ⟨m', h⟩
      exact Bool.noConfusion (congrArg Except.isOk h)

/-- `lwl r1, 1(r0)`. -/
theorem lwl_unaligned_crashes :
    ((wordMachine (fun _ => 0) 0x88010001).registers LoadReg).toNat < NumGPRegs ∧
      (wordMachine (fun _ => 0) 0x88010001).oneInstruction = .error (.crash .partialWord) :=
  ⟨by decide, rfl⟩

end Nachos
