import Nachos.Cpu.MipsSim

/-!
# What an instruction can do

An instruction completes, enters `ExceptionHandler`, or stops the simulator.  This file says once,
for all opcodes, when each of these happens and what it leaves behind; the results on exceptions, on
crashes and on the register file are taken from here.

* `Ends`: an exception is raised before anything but the translation has changed, a crash has one
  of the given causes, and what completes has the given property.
* `execute_ends` for the `switch`, `oneInstruction_ends` for the whole.
* `Instruction.reads` and `Instruction.writes`: the registers of an instruction, as the code has
  them.
-/

namespace Nachos

open Function

variable {c : Sizes}

/-! ### Memory -/

/-- The exceptions of `Translate`. -/
def translationExceptions : List ExceptionType :=
  [.addressErrorException, .pageFaultException, .readOnlyException, .busErrorException]

variable {tr : Translation c} {size : ℕ} {addr value : BitVec 32} {e : Executed c}

theorem Translation.entry_error {vpn : ℕ} {e : ExceptionType} (h : tr.entry vpn = .error e) :
    e ∈ translationExceptions := by
  unfold entry at h
  repeat' split at h
  all_goals cases h
  all_goals decide

theorem Translation.translate_cases (tr : Translation c) (addr : BitVec 32)
    (hsize : size = 1 ∨ size = 2 ∨ size = 4) (writing : Bool) :
    (∃ physAddr tr', tr.translate addr size writing = .ok (.ok physAddr, tr')) ∨
      ∃ e ∈ translationExceptions, tr.translate addr size writing = .ok (.error e, tr) := by
  unfold translate
  by_cases hal : Misaligned addr size
  · exact Or.inr ⟨.addressErrorException, by decide, by rw [if_pos hal]⟩
  rw [if_neg hal]
  cases hentry : tr.entry (pageOf addr) with
  | error e => exact Or.inr ⟨e, entry_error hentry, rfl⟩
  | ok p =>
    obtain ⟨entry, replace⟩ := p
    by_cases hro : (entry.readOnly && writing) = true
    · exact Or.inr ⟨.readOnlyException, by decide, by simp only [if_pos hro]⟩
    by_cases hframe : 0 ≤ entry.physicalPage ∧ entry.physicalPage < c.NumPhysPages
    · -- an aligned access does not leave its frame
      have hoff := offsetOf_add_le hal hsize
      have hle : (entry.physicalPage.toNat + 1) * PageSize ≤ c.NumPhysPages * PageSize :=
        Nat.mul_le_mul_right _ (by omega)
      have hrange : entry.physicalPage.toNat * PageSize + offsetOf addr + size ≤
          c.NumPhysPages * PageSize := by
        rw [Nat.add_mul] at hle
        omega
      simp only [if_neg hro, if_pos hframe, if_pos hrange]
      exact Or.inl ⟨_, _, rfl⟩
    · exact Or.inr ⟨.busErrorException, by decide, by simp only [if_neg hro, if_neg hframe]⟩

theorem readValue_ok (mem : ℕ → Byte) (physAddr : ℕ) (hsize : size = 1 ∨ size = 2 ∨ size = 4) :
    ∃ value, readValue mem physAddr size = .ok value := by
  rcases hsize with rfl | rfl | rfl <;> exact ⟨_, rfl⟩

theorem writeValue_stores (mem : ℕ → Byte) (physAddr : ℕ) (value : BitVec 32)
    (hsize : size = 1 ∨ size = 2 ∨ size = 4) :
    writeValue mem physAddr value size = .ok (storeBytes mem physAddr size value) := by
  rcases hsize with rfl | rfl | rfl <;> rfl

namespace Machine

theorem readMem_cases (m : Machine c) (addr : BitVec 32) (hsize : size = 1 ∨ size = 2 ∨ size = 4) :
    (∃ value tr, m.readMem addr size = .ok (value, { m with translation := tr })) ∨
      ∃ e ∈ translationExceptions, m.readMem addr size = m.raiseException e addr := by
  unfold readMem
  rcases m.translation.translate_cases addr hsize false with ⟨physAddr, tr, h⟩ | ⟨e, he, h⟩
  · obtain ⟨value, hv⟩ := readValue_ok m.mainMemory physAddr hsize
    exact Or.inl ⟨value, tr, by rw [h]; simp only [hv]⟩
  · exact Or.inr ⟨e, he, by rw [h]⟩

theorem readMem_translated (m : Machine c) {m' : Machine c}
    (h : m.readMem addr size = .ok (value, m')) : ∃ tr, m' = { m with translation := tr } := by
  unfold readMem raiseException delayedLoad at h
  simp only [bind, Except.bind] at h
  repeat' split at h
  all_goals cases h
  exact ⟨_, rfl⟩

theorem writeMem_cases (m : Machine c) (addr value : BitVec 32)
    (hsize : size = 1 ∨ size = 2 ∨ size = 4) :
    (∃ mem tr, m.writeMem addr size value =
        .ok { m with mainMemory := mem, translation := tr }) ∨
      ∃ e ∈ translationExceptions, m.writeMem addr size value = m.raiseException e addr := by
  unfold writeMem
  rcases m.translation.translate_cases addr hsize true with ⟨physAddr, tr, h⟩ | ⟨e, he, h⟩
  · refine Or.inl ⟨storeBytes m.mainMemory physAddr size value, tr, ?_⟩
    rw [h]
    simp only [writeValue_stores _ _ _ hsize]
  · exact Or.inr ⟨e, he, by rw [h]⟩

/-- Neither the registers nor the bytes of memory decide whether and where memory is read. -/
theorem readMem_setRegisters {m m' : Machine c} (h : m.readMem addr size = .ok (value, m'))
    (r : Registers) :
    ({ m with registers := r } : Machine c).readMem addr size =
      .ok (value, { m' with registers := r }) := by
  unfold readMem raiseException delayedLoad at h ⊢
  simp only [bind, Except.bind] at h ⊢
  repeat' split at h
  all_goals cases h
  all_goals simp_all

end Machine

/-! ### Outcomes -/

/-- The exceptions of `machine.h`, without the two values that mark the ends of the type. -/
def definedExceptions : List ExceptionType :=
  [.syscallException, .pageFaultException, .readOnlyException, .busErrorException,
    .addressErrorException, .overflowException, .illegalInstrException]

/-- The outcomes of code that starts on the machine `m`. -/
def Ends {α : Type} (m : Machine c) (crash : Crash → Prop) (done : α → Prop) :
    Except (Trap c) α → Prop
  | .ok a => done a
  | .error (.raised which m₁) => which ∈ definedExceptions ∧ ∃ tr badVAddr,
      (({ m with translation := tr } : Machine c).setReg BadVAddrReg badVAddr).delayedLoad 0 0 =
        .ok m₁
  | .error (.crash e) => crash e

namespace Ends

variable {α β : Type} {m : Machine c} {crash crash' : Crash → Prop} {done : α → Prop}

/-- `DelayedLoad` would write outside `registers`. -/
def WildLoad (m : Machine c) (e : Crash) : Prop :=
  e = .fault .wildAccess ∧ NumTotalRegs ≤ (m.registers LoadReg).toNat

theorem raise {which : ExceptionType} (hw : which ∈ definedExceptions) (badVAddr : BitVec 32)
    (hc : ∀ e, WildLoad m e → crash e) :
    Ends m crash done (m.raiseException which badVAddr) := by
  unfold Machine.raiseException
  cases h : (m.setReg BadVAddrReg badVAddr).delayedLoad 0 0 with
  | ok m₁ => exact ⟨hw, m.translation, badVAddr, h⟩
  | error t =>
    obtain ⟨rfl, hle⟩ := Machine.delayedLoad_error h
    rw [Machine.setReg_of_ne (by decide)] at hle
    exact hc _ ⟨rfl, hle⟩

theorem raise_of_mem {which : ExceptionType} (hw : which ∈ translationExceptions)
    (badVAddr : BitVec 32) (hc : ∀ e, WildLoad m e → crash e) :
    Ends m crash done (m.raiseException which badVAddr) := by
  refine raise ?_ badVAddr hc
  revert which
  decide

theorem translated {x : Except (Trap c) α} (h : Ends { m with translation := tr } crash done x) :
    Ends m crash done x := by
  match x, h with
  | .ok _, h => exact h
  | .error (.raised _ _), h => exact h
  | .error (.crash _), h => exact h

theorem readMem {f : BitVec 32 × Machine c → Except (Trap c) α}
    (hsize : size = 1 ∨ size = 2 ∨ size = 4) (hc : ∀ e, WildLoad m e → crash e)
    (h : ∀ value tr, m.readMem addr size = .ok (value, { m with translation := tr }) →
      Ends { m with translation := tr } crash done (f (value, { m with translation := tr }))) :
    Ends m crash done (m.readMem addr size >>= f) := by
  rcases m.readMem_cases addr hsize with ⟨value, tr, hr⟩ | ⟨e, he, hr⟩
  · have hf := h value tr hr
    rw [hr]
    exact hf.translated
  · have hraise : Ends m crash done (m.raiseException e addr) := raise_of_mem he addr hc
    rw [hr]
    unfold Machine.raiseException at hraise ⊢
    cases hd : (m.setReg BadVAddrReg addr).delayedLoad 0 0 <;> rw [hd] at hraise <;> exact hraise

theorem writeMem {f : Machine c → Except (Trap c) α} (hsize : size = 1 ∨ size = 2 ∨ size = 4)
    (hc : ∀ e, WildLoad m e → crash e)
    (h : ∀ mem tr, ∃ a, f { m with mainMemory := mem, translation := tr } = .ok a ∧ done a) :
    Ends m crash done (m.writeMem addr size value >>= f) := by
  rcases m.writeMem_cases addr value hsize with ⟨mem, tr, hr⟩ | ⟨e, he, hr⟩
  · obtain ⟨a, ha, hd⟩ := h mem tr
    rw [hr]
    show Ends m crash done (f _)
    rw [ha]
    exact hd
  · have hraise : Ends m crash done (m.raiseException e addr) := raise_of_mem he addr hc
    rw [hr]
    unfold Machine.raiseException at hraise ⊢
    cases hd : (m.setReg BadVAddrReg addr).delayedLoad 0 0 <;> rw [hd] at hraise <;> exact hraise

end Ends

/-! ### The registers of an instruction -/

/-- The registers whose values an instruction works on. -/
def Instruction.reads (instr : Instruction) : List (Fin NumTotalRegs) :=
  match instr.opCode with
  | .add | .addu | .and | .nor | .slt | .sltu | .sub | .subu | .xor | .sllv | .srav | .srlv
  | .beq | .bne | .div | .divu | .mult | .multu | .sb | .sh | .sw | .swl | .swr
  | .lwl | .lwr => [gp instr.rs, gp instr.rt]
  | .addi | .addiu | .andi | .ori | .slti | .sltiu | .xori | .bgez | .bgezal | .bgtz | .blez
  | .bltz | .bltzal | .jalr | .jr | .lb | .lbu | .lh | .lhu | .lw | .mthi | .mtlo
  | .or => [gp instr.rs]
  | .sll | .sra | .srl => [gp instr.rt]
  | .mfhi => [HiReg]
  | .mflo => [LoReg]
  | .lui | .j | .jal | .syscall | .unimp | .res | .rfe | .special | .bcond => []

/-- The registers that an instruction writes; a load goes to its register later. -/
def Instruction.writes (instr : Instruction) : List (Fin NumTotalRegs) :=
  match instr.opCode with
  | .add | .addu | .and | .nor | .or | .slt | .sltu | .sub | .subu | .xor | .sllv | .srav | .srlv
  | .sll | .sra | .srl | .mfhi | .mflo | .jalr => [gp instr.rd]
  | .addi | .addiu | .andi | .lui | .ori | .slti | .sltiu | .xori => [gp instr.rt]
  | .bgezal | .bltzal | .jal => [R31]
  | .div | .divu | .mult | .multu => [HiReg, LoReg]
  | .mthi => [HiReg]
  | .mtlo => [LoReg]
  | .beq | .bne | .bgez | .bgtz | .blez | .bltz | .j | .jr | .lb | .lbu | .lh | .lhu | .lw | .lwl
  | .lwr | .sb | .sh | .sw | .swl | .swr | .syscall | .unimp | .res | .rfe | .special | .bcond => []

/-- What a case of the switch that ends in `break` leaves. -/
structure Written (instr : Instruction) (m : Machine c) (e : Executed c) : Prop where
  other : ∀ i, i ∉ instr.writes → e.machine.registers i = m.registers i
  loadReg : e.nextLoadReg.toNat < NumGPRegs

/-- The operands with which an instruction stops the simulator. -/
inductive Crashes (instr : Instruction) (m : Machine c) : Crash → Prop
  | wildLoad (h : NumTotalRegs ≤ (m.registers LoadReg).toNat) :
    Crashes instr m (.fault .wildAccess)
  | partialWord (hop : instr.opCode ∈ [.lwl, .lwr, .swl, .swr])
    (h : (m.registers (gp instr.rs) + instr.extra) &&& 3 ≠ 0) : Crashes instr m .partialWord
  | hostDivision (hop : instr.opCode = .div) (hs : m.registers (gp instr.rs) = .intMin 32)
    (ht : m.registers (gp instr.rt) = -1) : Crashes instr m .hostDivision
  | badOpCode (hop : instr.opCode ∈ [.rfe, .special, .bcond]) : Crashes instr m .badOpCode

section execute

variable {instr : Instruction} {m m' : Machine c}

theorem Crashes.of_wildLoad (e : Crash) (h : Ends.WildLoad m e) : Crashes instr m e := by
  obtain ⟨rfl, h⟩ := h
  exact .wildLoad h

theorem Crashes.translated {e : Crash} (h : Crashes instr { m with translation := tr } e) :
    Crashes instr m e := by
  cases h with
  | wildLoad h => exact .wildLoad h
  | partialWord hop h => exact .partialWord hop h
  | hostDivision hop hs ht => exact .hostDivision hop hs ht
  | badOpCode hop => exact .badOpCode hop

theorem zero_isGP : (0 : BitVec 32).toNat < NumGPRegs := by decide

theorem Written.next (hr : ∀ i, i ∉ instr.writes → m'.registers i = m.registers i) :
    Written instr m m'.next := ⟨hr, zero_isGP⟩

theorem Written.put {d : Fin NumTotalRegs} (hw : instr.writes = [d]) :
    Written instr m (m.put d value) := by
  refine .next fun i hi => update_of_ne ?_ ..
  rintro rfl
  exact hi (by rw [hw]; simp)

theorem Written.putHiLo {hi lo : BitVec 32} (hw : instr.writes = [HiReg, LoReg]) :
    Written instr m (m.putHiLo hi lo) := by
  refine .next fun i hin => ?_
  rw [hw] at hin
  simp only [List.mem_cons, List.not_mem_nil, or_false, not_or] at hin
  exact (update_of_ne hin.2 ..).trans (update_of_ne hin.1 ..)

theorem Written.link {d : Fin NumTotalRegs} {pcAfter : BitVec 32} (hw : instr.writes = [d]) :
    Written instr m { (m.setReg d value).next with pcAfter := pcAfter } where
  other := (Written.put hw).other
  loadReg := zero_isGP

theorem Written.load (rt : Fin NumGPRegs) (value : BitVec 32) :
    Written instr m (({ m with translation := tr } : Machine c).load rt value) where
  other _ _ := rfl
  loadReg := by
    have := rt.isLt
    show (BitVec.ofNat 32 rt).toNat < NumGPRegs
    rw [BitVec.toNat_ofNat]
    unfold NumGPRegs at *
    omega

end execute

/-- **The outcomes of the switch**, for every instruction. -/
theorem execute_ends (instr : Instruction) (m : Machine c) :
    Ends m (Crashes instr m) (Written instr m) (m.execute instr) := by
  have hwild : ∀ e, Ends.WildLoad m e → Crashes instr m e := Crashes.of_wildLoad
  obtain ⟨op, rs, rt, rd, extra⟩ := instr
  cases op with
  | add | addi | sub =>
    simp only [Machine.execute]
    split_ifs
    · exact .raise (by decide) _ hwild
    · exact Written.put rfl
  | beq | bgez | bgtz | blez | bltz | bne | j | jr => exact ⟨fun _ _ => rfl, zero_isGP⟩
  | bgezal | bltzal | jal | jalr => exact Written.link rfl
  | div =>
    simp only [Machine.execute]
    split_ifs with h0 hmin
    · exact Written.putHiLo rfl
    · exact .hostDivision rfl hmin.1 hmin.2
    · exact Written.putHiLo rfl
  | divu =>
    simp only [Machine.execute]
    split_ifs <;> exact Written.putHiLo rfl
  | mult | multu => exact Written.putHiLo rfl
  | lb | lbu => exact .readMem (by decide) hwild fun _ _ _ => Written.load ..
  | lh | lhu | lw =>
    simp only [Machine.execute]
    split_ifs
    · exact .raise (by decide) _ hwild
    · exact .readMem (by decide) hwild fun _ _ _ => Written.load ..
  | lwl | lwr =>
    simp only [Machine.execute]
    split_ifs with h
    · exact .partialWord (by simp) h
    · exact .readMem (by decide) hwild fun _ _ _ => Written.load ..
  | sb | sh | sw =>
    exact .writeMem (by decide) hwild fun _ _ => ⟨_, rfl, .next fun _ _ => rfl⟩
  | swl | swr =>
    simp only [Machine.execute]
    split_ifs with h
    · exact .partialWord (by simp) h
    · refine .readMem (by decide) hwild fun _ _ _ => ?_
      exact .writeMem (by decide) hwild fun _ _ => ⟨_, rfl, .next fun _ _ => rfl⟩
  | syscall | res | unimp => exact .raise (by decide) _ hwild
  | rfe | special | bcond => exact .badOpCode (by simp)
  | _ => exact Written.put rfl

theorem execute_written {instr : Instruction} {m : Machine c} (h : m.execute instr = .ok e) :
    Written instr m e := by
  have hends := execute_ends instr m
  rw [h] at hends
  exact hends

/-! ### The whole instruction -/

/-- The switch writes general registers, Hi and Lo. -/
theorem Instruction.writes_lt (instr : Instruction) : ∀ i ∈ instr.writes, i < PCReg := by
  have hgp : ∀ i : Fin NumGPRegs, gp i < PCReg := by decide
  obtain ⟨op, rs, rt, rd, extra⟩ := instr
  cases op <;> simp [Instruction.writes, hgp] <;> decide

theorem Written.special {instr : Instruction} {m : Machine c} (h : Written instr m e)
    {i : Fin NumTotalRegs} (hi : PCReg ≤ i) : e.machine.registers i = m.registers i :=
  h.other i fun hmem => Nat.lt_irrefl _ (lt_of_lt_of_le (instr.writes_lt i hmem) hi)

/-- A register file between two instructions: R0 is 0, and `LoadReg` a general register. -/
structure Registers.Valid (r : Registers) : Prop where
  zero : r 0 = 0
  loadReg : (r LoadReg).toNat < NumGPRegs

theorem Machine.finish_ok {m : Machine c} (h : finish e = .ok m) :
    ∃ m₁, e.machine.delayedLoad e.nextLoadReg e.nextLoadValue = .ok m₁ ∧
      m = ((m₁.setReg PrevPCReg (m₁.registers PCReg)).setReg PCReg
        (m₁.registers NextPCReg)).setReg NextPCReg e.pcAfter := by
  unfold finish at h
  cases hd : e.machine.delayedLoad e.nextLoadReg e.nextLoadValue with
  | error t =>
    rw [hd] at h
    cases h
  | ok m₁ =>
    rw [hd] at h
    cases h
    refine ⟨m₁, rfl, ?_⟩
    rw [setReg_of_ne (by decide)]

theorem Machine.finish_error {t : Trap c} (h : finish e = .error t) :
    t = .crash (.fault .wildAccess) ∧ NumTotalRegs ≤ (e.machine.registers LoadReg).toNat := by
  unfold finish at h
  cases hd : e.machine.delayedLoad e.nextLoadReg e.nextLoadValue with
  | error t' =>
    rw [hd] at h
    cases h
    exact delayedLoad_error hd
  | ok m₁ =>
    rw [hd] at h
    cases h

theorem Machine.finish_valid {m : Machine c} (h : finish e = .ok m)
    (hload : e.nextLoadReg.toNat < NumGPRegs) : m.registers.Valid := by
  obtain ⟨m₁, hd, rfl⟩ := finish_ok h
  obtain ⟨hlt, rfl⟩ := delayedLoad_ok hd
  constructor
  · rw [setReg_of_ne (by decide), setReg_of_ne (by decide), setReg_of_ne (by decide), setReg_self]
  · rw [setReg_of_ne (by decide), setReg_of_ne (by decide), setReg_of_ne (by decide),
      setReg_of_ne (by decide), setReg_of_ne (by decide), setReg_self]
    exact hload

/-- **The outcomes of an instruction**. -/
theorem oneInstruction_ends (m : Machine c) :
    Ends m (fun e => Ends.WildLoad m e ∨ ∃ raw m',
        m.readMem (m.registers PCReg) 4 = .ok (raw, m') ∧ Crashes (decode raw) m e)
      (fun m' => m'.registers.Valid) m.oneInstruction := by
  refine .readMem (by decide) (fun e he => Or.inl he) fun raw tr hr => ?_
  have hex := execute_ends (decode raw) ({ m with translation := tr } : Machine c)
  show Ends _ _ _ (({ m with translation := tr } : Machine c).execute (decode raw) >>= _)
  cases hx : ({ m with translation := tr } : Machine c).execute (decode raw) with
  | error t =>
    rw [hx] at hex
    cases t with
    | raised which m₁ => exact hex
    | crash e => exact Or.inr ⟨raw, _, hr, Crashes.translated hex⟩
  | ok e =>
    rw [hx] at hex
    show Ends _ _ _ (Machine.finish e)
    cases hf : Machine.finish e with
    | ok m' => exact Machine.finish_valid hf hex.loadReg
    | error t =>
      obtain ⟨rfl, hle⟩ := Machine.finish_error hf
      rw [hex.special (by decide)] at hle
      exact Or.inl ⟨rfl, hle⟩

end Nachos
