import Nachos.Cpu.Exceptions

/-!
# Restarting an instruction

An instruction that raises an exception has done nothing yet but what the kernel needs: the delayed
load is applied, and `BadVAddrReg` is set.  After the handler has returned it is executed again.

* `Registers.loaded`: a register as it is once the delayed load is applied.
* `execute_congr`: what an instruction does depends on the registers it reads only.
* `exceptions_precise`: the state in which the handler is entered, and that an instruction which has
  been tried in vain comes out as if it had not.
-/

namespace Nachos

open Function

variable {c : Sizes}

/-! ### The delayed load -/

/-- Register `i` once the delayed load is applied; R0 and the registers of the load itself apart. -/
def Registers.loaded (r : Registers) (i : Fin NumTotalRegs) : BitVec 32 :=
  if (i : ℕ) = (r LoadReg).toNat then r LoadValueReg else r i

/-- The registers that a delayed load sets in any case. -/
def loadRegisters : List (Fin NumTotalRegs) := [0, LoadReg, LoadValueReg]

variable {i : Fin NumTotalRegs}

theorem Machine.delayedLoad_loaded {m m' : Machine c} {nextReg nextValue : BitVec 32}
    (h : m.delayedLoad nextReg nextValue = .ok m') (hi : i ∉ loadRegisters) :
    m'.registers i = m.registers.loaded i := by
  obtain ⟨hlt, rfl⟩ := delayedLoad_ok h
  simp only [loadRegisters, List.mem_cons, List.not_mem_nil, or_false, not_or] at hi
  rw [setReg_of_ne hi.1, setReg_of_ne hi.2.2, setReg_of_ne hi.2.1]
  unfold Registers.loaded
  by_cases hp : (i : ℕ) = (m.registers LoadReg).toNat
  · rw [if_pos hp, show i = ⟨_, hlt⟩ from Fin.ext hp, setReg_self]
  · rw [if_neg hp, setReg_of_ne fun hip => hp (congrArg Fin.val hip)]

/-- The registers that the end of `OneInstruction` sets in any case. -/
def endRegisters : List (Fin NumTotalRegs) := loadRegisters ++ [PCReg, NextPCReg, PrevPCReg]

section finish

variable {e : Executed c} {m : Machine c}

theorem Machine.finish_exists (hlt : (e.machine.registers LoadReg).toNat < NumTotalRegs) :
    ∃ m, finish e = .ok m := by
  cases h : finish e with
  | ok m => exact ⟨m, rfl⟩
  | error t =>
    have hle := (finish_error h).2
    omega

theorem Machine.finish_registers (h : finish e = .ok m) :
    m.registers 0 = 0 ∧ m.registers LoadReg = e.nextLoadReg ∧
      m.registers LoadValueReg = e.nextLoadValue ∧ m.registers NextPCReg = e.pcAfter ∧
      m.registers PCReg = e.machine.registers.loaded NextPCReg ∧
      m.registers PrevPCReg = e.machine.registers.loaded PCReg := by
  obtain ⟨m₁, hd, rfl⟩ := finish_ok h
  obtain ⟨hlt, hm₁⟩ := delayedLoad_ok hd
  exact ⟨by rw [hm₁]; rfl, by rw [hm₁]; rfl, by rw [hm₁]; rfl, rfl,
    delayedLoad_loaded hd (by decide), delayedLoad_loaded hd (by decide)⟩

theorem Machine.finish_loaded (h : finish e = .ok m) (hi : i ∉ endRegisters) :
    m.registers i = e.machine.registers.loaded i := by
  obtain ⟨m₁, hd, rfl⟩ := finish_ok h
  simp only [endRegisters, List.mem_append, List.mem_cons, List.not_mem_nil, or_false,
    not_or] at hi
  rw [setReg_of_ne hi.2.2.1, setReg_of_ne hi.2.1, setReg_of_ne hi.2.2.2,
    delayedLoad_loaded hd hi.1]

theorem Machine.finish_mainMemory (h : finish e = .ok m) :
    m.mainMemory = e.machine.mainMemory := by
  obtain ⟨m₁, hd, rfl⟩ := finish_ok h
  obtain ⟨hlt, rfl⟩ := delayedLoad_ok hd
  rfl

end finish

/-! ### What an instruction depends on -/

/-- Two executions of an instruction that differ only in registers it has nothing to do with. -/
structure SameEffect (instr : Instruction) (m m' : Machine c) (e e' : Executed c) : Prop where
  mainMemory : e'.machine.mainMemory = e.machine.mainMemory := by rfl
  translation : e'.machine.translation = e.machine.translation := by rfl
  pcAfter : e'.pcAfter = e.pcAfter := by rfl
  loadReg : e'.nextLoadReg = e.nextLoadReg := by rfl
  -- LWR keeps bytes of the old value of its register
  loadValue : (instr.opCode = .lwr → m'.partialOld instr.rt = m.partialOld instr.rt) →
    e'.nextLoadValue = e.nextLoadValue := by exact fun _ => rfl
  written : ∀ i ∈ instr.writes, e'.machine.registers i = e.machine.registers i

/-- The machine with other registers. -/
def Machine.withRegisters (r : Registers) (m : Machine c) : Machine c := { m with registers := r }

section

variable {instr : Instruction} {m : Machine c} {r : Registers}
  {d : Fin NumTotalRegs} {value addr : BitVec 32}

theorem Instruction.nextPC_ne (instr : Instruction) (hd : d ∈ instr.writes) : NextPCReg ≠ d :=
  (ne_of_lt (lt_trans (instr.writes_lt d hd) (by decide))).symm

theorem SameEffect.put (hw : instr.writes = [d]) (hpc : r NextPCReg = m.registers NextPCReg) :
    SameEffect instr m (m.withRegisters r) (m.put d value) ((m.withRegisters r).put d value) where
  pcAfter := by
    have hd : NextPCReg ≠ d := instr.nextPC_ne (by simp [hw])
    show (Machine.setReg _ _ _).registers _ + 4 = (Machine.setReg _ _ _).registers _ + 4
    rw [Machine.setReg_of_ne hd, Machine.setReg_of_ne hd]
    exact congrArg (· + 4) hpc
  written i hi := by
    rw [hw, List.mem_singleton] at hi
    subst hi
    exact (Machine.setReg_self ..).trans (Machine.setReg_self ..).symm

theorem SameEffect.putHiLo {hi lo : BitVec 32} (hw : instr.writes = [HiReg, LoReg])
    (hpc : r NextPCReg = m.registers NextPCReg) :
    SameEffect instr m (m.withRegisters r) (m.putHiLo hi lo)
      ((m.withRegisters r).putHiLo hi lo) where
  pcAfter := congrArg (· + 4) hpc
  written i hin := by
    rw [hw] at hin
    simp only [List.mem_cons, List.not_mem_nil, or_false] at hin
    rcases hin with rfl | rfl <;> rfl

theorem SameEffect.link {pcAfter : BitVec 32} (hw : instr.writes = [d]) :
    SameEffect instr m (m.withRegisters r) { (m.setReg d value).next with pcAfter := pcAfter }
      { ((m.withRegisters r).setReg d value).next with pcAfter := pcAfter } where
  written i hi := by
    rw [hw, List.mem_singleton] at hi
    subst hi
    exact (Machine.setReg_self ..).trans (Machine.setReg_self ..).symm

theorem SameEffect.jump {pcAfter : BitVec 32} (hw : instr.writes = []) :
    SameEffect instr m (m.withRegisters r) { m.next with pcAfter := pcAfter }
      { (m.withRegisters r).next with pcAfter := pcAfter } where
  written i hi := by simp [hw] at hi

theorem SameEffect.load {tr : Translation c} {rt : Fin NumGPRegs} {value' : BitVec 32}
    (hw : instr.writes = []) (hpc : r NextPCReg = m.registers NextPCReg)
    (hv : (instr.opCode = .lwr →
        (m.withRegisters r).partialOld instr.rt = m.partialOld instr.rt) → value' = value) :
    SameEffect instr m (m.withRegisters r)
      (({ m with translation := tr } : Machine c).load rt value)
      ((({ m with translation := tr } : Machine c).withRegisters r).load rt value') where
  pcAfter := congrArg (· + 4) hpc
  loadValue := hv
  written i hi := by simp [hw] at hi

theorem SameEffect.store {m₁ : Machine c} (hw : instr.writes = [])
    (hreg : m₁.registers = m.registers) (hpc : r NextPCReg = m.registers NextPCReg) :
    SameEffect instr m (m.withRegisters r) m₁.next (m₁.withRegisters r).next where
  pcAfter := congrArg (· + 4) (hpc.trans (congrFun hreg.symm _))
  written i hi := by simp [hw] at hi

theorem Machine.raiseException_ne_ok {α : Type} {which : ExceptionType} {badVAddr : BitVec 32}
    {a : α} : m.raiseException which badVAddr ≠ .ok a := by
  unfold raiseException
  cases (m.setReg BadVAddrReg badVAddr).delayedLoad 0 0 <;> nofun

theorem Machine.setReg_congr {m' : Machine c} (h : m'.registers i = m.registers i)
    (d : Fin NumTotalRegs) (value : BitVec 32) :
    (m'.setReg d value).registers i = (m.setReg d value).registers i := by
  by_cases hi : i = d
  · subst hi
    rw [setReg_self, setReg_self]
  · rw [setReg_of_ne hi, setReg_of_ne hi, h]

/-- A `ReadMem` that succeeds also does with other registers. -/
theorem Machine.readMem_bind {α : Type} {size : ℕ} {f : BitVec 32 × Machine c → Except (Trap c) α}
    {a : α} (h : (m.readMem addr size >>= f) = .ok a) (r : Registers) :
    ∃ value tr, f (value, { m with translation := tr }) = .ok a ∧
      (m.withRegisters r).readMem addr size =
        .ok (value, ({ m with translation := tr } : Machine c).withRegisters r) := by
  cases hr : m.readMem addr size with
  | error t =>
    rw [hr] at h
    cases h
  | ok p =>
    obtain ⟨value, m'⟩ := p
    obtain ⟨tr, rfl⟩ := m.readMem_translated hr
    have hr' := Machine.readMem_setRegisters hr r
    rw [hr] at h
    exact ⟨value, tr, h, hr'⟩

theorem Machine.writeMem_setRegisters {m' : Machine c} {size : ℕ}
    (h : m.writeMem addr size value = .ok m') (r : Registers) :
    (m.withRegisters r).writeMem addr size value = .ok (m'.withRegisters r) := by
  unfold writeMem raiseException delayedLoad withRegisters at *
  simp only [bind, Except.bind] at h ⊢
  repeat' split at h
  all_goals cases h
  all_goals simp_all

/-- So does a `WriteMem`. -/
theorem Machine.writeMem_bind {α : Type} {size : ℕ} {f : Machine c → Except (Trap c) α} {a : α}
    (h : (m.writeMem addr size value >>= f) = .ok a) (r : Registers) :
    ∃ m₁, m₁.registers = m.registers ∧ f m₁ = .ok a ∧
      (m.withRegisters r).writeMem addr size value = .ok (m₁.withRegisters r) := by
  cases hr : m.writeMem addr size value with
  | error t =>
    rw [hr] at h
    cases h
  | ok m₁ =>
    have hr' := Machine.writeMem_setRegisters hr r
    rw [hr] at h
    refine ⟨m₁, ?_, h, hr'⟩
    unfold writeMem raiseException delayedLoad at hr
    simp only [bind, Except.bind] at hr
    repeat' split at hr
    all_goals cases hr
    rfl

theorem lwlValue_aligned {tmp : BitVec 32} (h : ¬ tmp &&& 3 ≠ 0) (value old : BitVec 32) :
    lwlValue tmp value old = value := by
  have h0 : (tmp &&& 3).toNat = 0 := by
    rw [not_ne_iff] at h
    rw [h]
    rfl
  simp only [lwlValue, h0]

theorem execute_congr {e : Executed c} (h : m.execute instr = .ok e)
    (hreg : ∀ i ∈ instr.reads, r i = m.registers i)
    (hpc : r NextPCReg = m.registers NextPCReg) :
    ∃ e', (m.withRegisters r).execute instr = .ok e' ∧
      SameEffect instr m (m.withRegisters r) e e' := by
  have hreg' : ∀ i ∈ instr.reads, (m.withRegisters r).registers i = m.registers i := hreg
  have hpc' : (m.withRegisters r).registers NextPCReg = m.registers NextPCReg := hpc
  obtain ⟨op, rs, rt, rd, extra⟩ := instr
  cases op <;> simp only [Instruction.reads, List.forall_mem_cons] at hreg'
  case add | sub | addi =>
    simp only [Machine.execute, hreg'] at h ⊢
    split_ifs at h with hov
    · exact absurd h Machine.raiseException_ne_ok
    · cases h
      rw [if_neg hov]
      exact ⟨_, rfl, .put rfl hpc⟩
  case beq | bne | bgez | bgtz | blez | bltz | jr | j =>
    simp only [Machine.execute, Machine.branch, Machine.jump, Machine.next, hreg', hpc'] at h ⊢
    cases h
    exact ⟨_, rfl, .jump rfl⟩
  case bgezal | bltzal | jalr =>
    simp only [Machine.execute, Machine.branch, Machine.jump, Machine.next, hpc',
      Machine.setReg_congr hreg'.1, Machine.setReg_congr hpc'] at h ⊢
    cases h
    exact ⟨_, rfl, .link rfl⟩
  case jal =>
    simp only [Machine.execute, hpc'] at h ⊢
    cases h
    exact ⟨_, rfl, .link rfl⟩
  case div =>
    simp only [Machine.execute, hreg'] at h ⊢
    split_ifs at h ⊢ with h0 hmin
    · cases h
      exact ⟨_, rfl, .putHiLo rfl hpc⟩
    · cases h
      exact ⟨_, rfl, .putHiLo rfl hpc⟩
  case divu =>
    simp only [Machine.execute, hreg'] at h ⊢
    split_ifs at h ⊢ with h0
    · cases h
      exact ⟨_, rfl, .putHiLo rfl hpc⟩
    · cases h
      exact ⟨_, rfl, .putHiLo rfl hpc⟩
  case mult | multu =>
    simp only [Machine.execute, hreg'] at h ⊢
    cases h
    exact ⟨_, rfl, .putHiLo rfl hpc⟩
  case lb | lbu =>
    simp only [Machine.execute, hreg'] at h ⊢
    obtain ⟨value, tr, hf, hr⟩ := Machine.readMem_bind h r
    cases hf
    rw [hr]
    exact ⟨_, rfl, .load rfl hpc fun _ => rfl⟩
  case lh | lhu | lw =>
    simp only [Machine.execute, hreg'] at h ⊢
    split at h
    · exact absurd h Machine.raiseException_ne_ok
    · rename_i hal
      obtain ⟨value, tr, hf, hr⟩ := Machine.readMem_bind h r
      cases hf
      rw [if_neg hal, hr]
      exact ⟨_, rfl, .load rfl hpc fun _ => rfl⟩
  case lwl =>
    simp only [Machine.execute, hreg'] at h ⊢
    split_ifs at h with hal
    obtain ⟨value, tr, hf, hr⟩ := Machine.readMem_bind h r
    cases hf
    rw [if_neg hal, hr]
    refine ⟨_, rfl, .load rfl hpc fun _ => ?_⟩
    rw [lwlValue_aligned hal, lwlValue_aligned hal]
  case lwr =>
    simp only [Machine.execute, hreg'] at h ⊢
    split_ifs at h with hal
    obtain ⟨value, tr, hf, hr⟩ := Machine.readMem_bind h r
    cases hf
    rw [if_neg hal, hr]
    exact ⟨_, rfl, .load rfl hpc fun hold => congrArg _ (hold rfl)⟩
  case sb | sh | sw =>
    simp only [Machine.execute, hreg'] at h ⊢
    obtain ⟨m₁, hm₁, hf, hw⟩ := Machine.writeMem_bind h r
    cases hf
    rw [hw]
    exact ⟨_, rfl, .store rfl hm₁ hpc⟩
  case swl | swr =>
    simp only [Machine.execute, hreg'] at h ⊢
    split_ifs at h with hal
    obtain ⟨value, tr, h, hr⟩ := Machine.readMem_bind h r
    obtain ⟨m₁, hm₁, hf, hw⟩ := Machine.writeMem_bind h r
    cases hf
    refine ⟨_, ?_, .store rfl hm₁ hpc⟩
    rw [if_neg hal, hr]
    simp only [bind, Except.bind] at hw ⊢
    rw [hw]
    rfl
  case syscall | res | unimp => exact absurd h Machine.raiseException_ne_ok
  case rfe | special | bcond => cases h
  all_goals
    simp only [Machine.execute, hreg'] at h ⊢
    cases h
    exact ⟨_, rfl, .put rfl hpc⟩
end

/-! ### Exceptions -/

/-- The registers with which `ExceptionHandler` is entered, but for `BadVAddrReg`. -/
structure Trapped (r r₁ : Registers) : Prop where
  inRange : (r LoadReg).toNat < NumTotalRegs
  zero : r₁ 0 = 0
  loadReg : r₁ LoadReg = 0
  loadValueReg : r₁ LoadValueReg = 0
  loaded : ∀ i, i ∉ BadVAddrReg :: loadRegisters → r₁ i = r.loaded i

theorem oneInstruction_raised {m m₁ : Machine c} {which : ExceptionType}
    (h : m.oneInstruction = .error (.raised which m₁)) :
    m₁.mainMemory = m.mainMemory ∧ Trapped m.registers m₁.registers := by
  have hends := oneInstruction_ends m
  rw [h] at hends
  obtain ⟨-, tr, badVAddr, hd⟩ := hends
  obtain ⟨hlt, hm₁⟩ := Machine.delayedLoad_ok hd
  refine ⟨by rw [hm₁]; rfl, hlt, by rw [hm₁]; rfl, by rw [hm₁]; rfl, by rw [hm₁]; rfl,
    fun i hi => ?_⟩
  rw [List.mem_cons, not_or] at hi
  rw [Machine.delayedLoad_loaded hd hi.2]
  unfold Registers.loaded
  rw [Machine.setReg_of_ne hi.1, Machine.setReg_of_ne (by decide), Machine.setReg_of_ne (by decide)]

/-- `m'` is `m` after any number of page faults in the same instruction, each served by a handler
that has changed the translation only. -/
inductive Faulted : Machine c → Machine c → Prop
  | none (m : Machine c) : Faulted m m
  | fault {m m₁ m' : Machine c} (tr : Translation c)
    (h : m.oneInstruction = .error (.raised .pageFaultException m₁))
    (hrest : Faulted { m₁ with translation := tr } m') : Faulted m m'

/-- Applying the delayed load a second time changes nothing. -/
theorem Trapped.trans {r r₁ r₂ : Registers} (h₁ : Trapped r r₁) (h₂ : Trapped r₁ r₂) :
    Trapped r r₂ where
  inRange := h₁.inRange
  zero := h₂.zero
  loadReg := h₂.loadReg
  loadValueReg := h₂.loadValueReg
  loaded i hi := by
    rw [h₂.loaded i hi, ← h₁.loaded i hi]
    unfold Registers.loaded
    refine if_neg fun h0 => hi ?_
    rw [h₁.loadReg] at h0
    rw [show i = 0 from Fin.ext h0]
    decide

theorem Faulted.trapped {m m' : Machine c} (h : Faulted m m') :
    m'.mainMemory = m.mainMemory ∧ (m' = m ∨ Trapped m.registers m'.registers) := by
  induction h with
  | none m => exact ⟨rfl, Or.inl rfl⟩
  | fault tr h hrest ih =>
    obtain ⟨hmem, htrap⟩ := oneInstruction_raised h
    obtain ⟨hmem', rfl | htrap'⟩ := ih
    · exact ⟨hmem, Or.inr htrap⟩
    · exact ⟨hmem'.trans hmem, Or.inr (htrap.trans htrap')⟩

/-- Register `i` is read or written by the instruction; the program counters and the registers of
the delayed load are by every instruction. -/
def Instruction.Uses (instr : Instruction) (i : Fin NumTotalRegs) : Prop :=
  i ∈ instr.reads ∨ i ∈ instr.writes ∨ i ∈ endRegisters

/-- LWR into R0 while a load into R0 is on its way: it passes on bytes of the value that is loaded,
which nothing ever sees. -/
def PartialToZero (instr : Instruction) (r : Registers) : Prop :=
  instr.opCode = .lwr ∧ instr.rt = 0 ∧ r LoadReg = 0

theorem Instruction.reads_lt (instr : Instruction) : ∀ i ∈ instr.reads, i < PCReg := by
  have hgp : ∀ i : Fin NumGPRegs, gp i < PCReg := by decide
  obtain ⟨op, rs, rt, rd, extra⟩ := instr
  cases op <;> simp [Instruction.reads, hgp] <;> decide

theorem Instruction.reads_special (instr : Instruction) (i : Fin NumTotalRegs)
    (hi : i ∈ instr.reads) : i ∉ [LoadReg, LoadValueReg, BadVAddrReg] := by
  have hlt := instr.reads_lt i hi
  revert hlt
  clear hi
  revert i
  decide

/-- A register that the delayed load does not go to. -/
theorem Registers.loaded_of_ne {r : Registers} (h : (i : ℕ) ≠ (r LoadReg).toNat) :
    r.loaded i = r i := if_neg h

theorem Registers.loaded_of_zero {r : Registers} (h : r LoadReg = 0) (hi : i ≠ 0) :
    r.loaded i = r i := by
  refine if_neg fun h0 => hi (Fin.ext ?_)
  rw [h0, h]
  rfl

section restart

variable {m m' : Machine c} {instr : Instruction} (h : Trapped m.registers m'.registers)
  (h0 : m.registers 0 = 0)
  (hp : ∀ i : Fin NumTotalRegs, (i : ℕ) = (m.registers LoadReg).toNat → i ≠ 0 → ¬ instr.Uses i)

include h h0 hp

/-- The registers of the instruction are the same in the handler. -/
theorem Trapped.uses (hi : instr.Uses i) (hl : i ∉ [LoadReg, LoadValueReg, BadVAddrReg]) :
    m.registers i = m'.registers i := by
  by_cases hz : i = 0
  · rw [hz, h0, h.zero]
  · rw [h.loaded i, Registers.loaded_of_ne fun hip => hp i hip hz hi]
    simp only [loadRegisters, List.mem_cons, List.not_mem_nil, or_false, not_or] at hl ⊢
    exact ⟨hl.2.2, hz, hl.1, hl.2.1⟩

theorem Trapped.partialOld (hop : instr.opCode = .lwr)
    (hno : ¬ PartialToZero instr m.registers) :
    m.partialOld instr.rt = m'.partialOld instr.rt := by
  have huse : instr.Uses (gp instr.rt) := Or.inl (by simp [Instruction.reads, hop])
  have hgp : ∀ i, gp i ∉ [LoadReg, LoadValueReg, BadVAddrReg] := by decide
  have hrt : m.registers (gp instr.rt) = m'.registers (gp instr.rt) :=
    h.uses h0 hp huse (hgp _)
  have hval : (BitVec.ofNat 32 instr.rt).toNat = instr.rt := by
    have := instr.rt.isLt
    rw [BitVec.toNat_ofNat]
    unfold NumGPRegs at this
    omega
  unfold Machine.partialOld
  rw [h.loadReg, h.loadValueReg]
  by_cases hz : instr.rt = 0
  · have hload : m.registers LoadReg ≠ BitVec.ofNat 32 instr.rt := by
      rw [hz]
      exact fun hl => hno ⟨hop, hz, hl⟩
    rw [if_neg hload, if_pos (by rw [hz]; rfl), hz]
    exact h0
  · have hload : m.registers LoadReg ≠ BitVec.ofNat 32 instr.rt := by
      intro hl
      have hne : gp instr.rt ≠ 0 := by
        intro hg
        have hg' := congrArg Fin.val hg
        exact hz (Fin.ext hg')
      refine hp (gp instr.rt) ?_ hne huse
      rw [hl, hval]
      rfl
    have hload' : (0 : BitVec 32) ≠ BitVec.ofNat 32 instr.rt := by
      intro hl
      refine hz (Fin.ext ?_)
      rw [← hval, ← hl]
      rfl
    rw [if_neg hload, if_neg hload', hrt]

/-- The ends of the two executions. -/
theorem Trapped.finish {d' : Machine c} {e e' : Executed c} (hw : Written instr m e)
    (hw' : Written instr m' e') (hsame : SameEffect instr m' m e' e)
    (hf : Machine.finish e' = .ok d') :
    ∃ d, Machine.finish e = .ok d ∧ d'.mainMemory = d.mainMemory ∧
      ∀ i, i ≠ BadVAddrReg → (i = LoadValueReg → ¬ PartialToZero instr m.registers) →
        d'.registers i = d.registers i := by
  obtain ⟨d, hd⟩ : ∃ d, Machine.finish e = .ok d := by
    refine Machine.finish_exists ?_
    rw [hw.special (by decide)]
    exact h.inRange
  have hload : e.machine.registers LoadReg = m.registers LoadReg := hw.special (by decide)
  have hvalue : e.machine.registers LoadValueReg = m.registers LoadValueReg :=
    hw.special (by decide)
  have hload' : e'.machine.registers LoadReg = 0 := (hw'.special (by decide)).trans h.loadReg
  have hloaded' : ∀ i, i ≠ 0 → e'.machine.registers.loaded i = e'.machine.registers i :=
    fun i hi => Registers.loaded_of_zero hload' hi
  -- a register that is neither set by the end of the instruction nor `BadVAddrReg`
  have hreg : ∀ i, i ∉ BadVAddrReg :: loadRegisters →
      e'.machine.registers.loaded i = e.machine.registers.loaded i := by
    intro i hi
    have hi0 : i ≠ 0 := by
      rintro rfl
      exact hi (by decide)
    rw [hloaded' i hi0]
    unfold Registers.loaded
    rw [hload, hvalue]
    by_cases hip : (i : ℕ) = (m.registers LoadReg).toNat
    · have hnot : i ∉ instr.writes := fun hmem => hp i hip hi0 (Or.inr (Or.inl hmem))
      rw [if_pos hip, hw'.other i hnot, h.loaded i hi]
      exact if_pos hip
    · rw [if_neg hip]
      by_cases hmem : i ∈ instr.writes
      · exact (hsame.written i hmem).symm
      · rw [hw.other i hmem, hw'.other i hmem, h.loaded i hi, Registers.loaded_of_ne hip]
  refine ⟨d, hd, ?_, fun i hbad hlv => ?_⟩
  · rw [Machine.finish_mainMemory hf, Machine.finish_mainMemory hd, hsame.mainMemory]
  by_cases hend : i ∈ endRegisters
  · simp only [endRegisters, loadRegisters, List.cons_append, List.nil_append, List.mem_cons,
      List.not_mem_nil, or_false] at hend
    obtain ⟨hz', hl', hv', hn', hpc', hpr'⟩ := Machine.finish_registers hf
    obtain ⟨hz, hl, hv, hn, hpc, hpr⟩ := Machine.finish_registers hd
    rcases hend with rfl | rfl | rfl | rfl | rfl | rfl
    · rw [hz', hz]
    · rw [hl', hl, hsame.loadReg]
    · rw [hv', hv]
      exact (hsame.loadValue fun hop => h.partialOld h0 hp hop (hlv rfl)).symm
    · rw [hpc', hpc, hreg _ (by decide)]
    · rw [hn', hn, hsame.pcAfter]
    · rw [hpr', hpr, hreg _ (by decide)]
  · rw [Machine.finish_loaded hf hend, Machine.finish_loaded hd hend]
    refine hreg i fun hmem => ?_
    rcases List.mem_cons.1 hmem with hb | hl
    · exact hbad hb
    · exact hend (List.mem_append_left _ hl)

end restart

/-- The second execution, in which nothing is in the way any more. -/
theorem Trapped.restart {m m' m'' d' : Machine c} {raw : BitVec 32}
    (h : Trapped m.registers m'.registers) (hmem : m'.mainMemory = m.mainMemory)
    (h0 : m.registers 0 = 0)
    (hp : ∀ i : Fin NumTotalRegs, (i : ℕ) = (m.registers LoadReg).toNat → i ≠ 0 →
      ¬ (decode raw).Uses i)
    (hr : m'.readMem (m'.registers PCReg) 4 = .ok (raw, m''))
    (hdone : m'.oneInstruction = .ok d') :
    ∃ d, ({ m with translation := m'.translation } : Machine c).oneInstruction = .ok d ∧
      d'.mainMemory = d.mainMemory ∧
      ∀ i, i ≠ BadVAddrReg → (i = LoadValueReg → ¬ PartialToZero (decode raw) m.registers) →
        d'.registers i = d.registers i := by
  have hend : ∀ i ∈ endRegisters, i ∉ [LoadReg, LoadValueReg, BadVAddrReg] →
      m.registers i = m'.registers i := fun i hi hl =>
    h.uses h0 hp (Or.inr (Or.inr hi)) hl
  obtain ⟨tr, rfl⟩ := m'.readMem_translated hr
  rw [oneInstruction_of_execute hr] at hdone
  cases hex : ({ m' with translation := tr } : Machine c).execute (decode raw) with
  | error t =>
    rw [hex] at hdone
    cases hdone
  | ok e' =>
    rw [hex] at hdone
    -- the same word is fetched, and executed with the registers of `m`
    have hr₀ : ({ m with translation := m'.translation } : Machine c).readMem
        (m.registers PCReg) 4 = .ok (raw, { m with translation := tr }) := by
      have := Machine.readMem_setRegisters hr m.registers
      rw [← hend PCReg (by decide) (by decide), hmem] at this
      exact this
    have hM : ({ m' with translation := tr } : Machine c).withRegisters m.registers =
        { m with translation := tr } := by
      unfold Machine.withRegisters
      rw [hmem]
    obtain ⟨e, he, hsame⟩ := execute_congr hex
      (fun i hi => h.uses h0 hp (Or.inl hi) ((decode raw).reads_special i hi))
      (hend NextPCReg (by decide) (by decide))
    rw [hM] at he hsame
    have h' : Trapped ({ m with translation := tr } : Machine c).registers
        ({ m' with translation := tr } : Machine c).registers := h
    obtain ⟨d, hd, hdmem, hreg⟩ :=
      h'.finish h0 hp (execute_written he) (execute_written hex) hsame hdone
    refine ⟨d, ?_, hdmem, hreg⟩
    rw [oneInstruction_of_execute hr₀, he]
    exact hd

/-- **Exceptions are precise**: the handler finds memory and the registers as they were before the
instruction, with the delayed load applied; and an instruction that has nothing to do with the
register of the delayed load comes out the same after any number of page faults, but for
`BadVAddrReg`. -/
theorem exceptions_precise (m : Machine c) :
    (∀ which m₁, m.oneInstruction = .error (.raised which m₁) →
      m₁.mainMemory = m.mainMemory ∧ Trapped m.registers m₁.registers) ∧
    ∀ m' m'' d' raw, m.registers 0 = 0 → Faulted m m' →
      m'.readMem (m'.registers PCReg) 4 = .ok (raw, m'') →
      (∀ i : Fin NumTotalRegs, (i : ℕ) = (m.registers LoadReg).toNat → i ≠ 0 →
        ¬ (decode raw).Uses i) →
      m'.oneInstruction = .ok d' →
      ∃ d, ({ m with translation := m'.translation } : Machine c).oneInstruction = .ok d ∧
        d'.mainMemory = d.mainMemory ∧
        ∀ i, i ≠ BadVAddrReg → (i = LoadValueReg → ¬ PartialToZero (decode raw) m.registers) →
          d'.registers i = d.registers i := by
  refine ⟨fun which m₁ h => oneInstruction_raised h, fun m' m'' d' raw h0 hfaults hr hp hdone => ?_⟩
  obtain ⟨hmem, rfl | htrap⟩ := hfaults.trapped
  · exact ⟨d', hdone, rfl, fun _ _ _ => rfl⟩
  · exact htrap.restart hmem h0 hp hr hdone

/-- `wordMachine` before its page is there. -/
def faultMachine (r : Registers) (word : BitVec 32) : Machine machineH :=
  { wordMachine r word with translation := .pageTable [⟨0, 0, false, false, false, false⟩] }

/-- r1 holds 7, and 5 is on its way to r3. -/
def loadingRegisters : Registers :=
  update (update (update (fun _ => 0) 1 7) LoadReg 3) LoadValueReg 5

/-- `addu r2, r1, r1` after a page fault. -/
theorem exceptions_precise_addu :
    ∃ m' m'' d d' : Machine machineH, Faulted (faultMachine loadingRegisters 0x00211021) m' ∧
      m'.readMem (m'.registers PCReg) 4 = .ok (0x00211021, m'') ∧ m'.oneInstruction = .ok d' ∧
      ({ faultMachine loadingRegisters 0x00211021 with
        translation := m'.translation } : Machine machineH).oneInstruction = .ok d ∧
      d'.registers 2 = d.registers 2 ∧ d'.registers 3 = d.registers 3 := by
  have hp : ∀ i : Fin NumTotalRegs, (i : ℕ) = (loadingRegisters LoadReg).toNat → i ≠ 0 →
      ¬ (decode 0x00211021).Uses i := by
    unfold Instruction.Uses
    decide
  have hfault := Faulted.fault (m := faultMachine loadingRegisters 0x00211021)
    (wordMachine (fun _ => 0) 0).translation rfl (.none _)
  obtain ⟨d, hd, -, hreg⟩ := (exceptions_precise (faultMachine loadingRegisters 0x00211021)).2
    _ _ _ _ rfl hfault rfl hp rfl
  have hno : ∀ i : Fin NumTotalRegs, i = LoadValueReg →
      ¬ PartialToZero (decode 0x00211021) loadingRegisters := fun _ _ h => absurd h.1 (by decide)
  exact ⟨_, _, d, _, hfault, rfl, rfl, hd, hreg 2 (by decide) (hno _), hreg 3 (by decide) (hno _)⟩

/-- An instruction of `m` with no use for the register of the delayed load completes as `d'` after
page faults, and as `d` without them. -/
def Retried (m : Machine c) (instr : Instruction) (d d' : Machine c) : Prop :=
  ∃ m' m'' raw, decode raw = instr ∧ Faulted m m' ∧
    m'.readMem (m'.registers PCReg) 4 = .ok (raw, m'') ∧
    (∀ i : Fin NumTotalRegs, (i : ℕ) = (m.registers LoadReg).toNat → i ≠ 0 → ¬ instr.Uses i) ∧
    m'.oneInstruction = .ok d' ∧
    ({ m with translation := m'.translation } : Machine c).oneInstruction = .ok d

/-- What a page fault changes after all: `BadVAddrReg`; an R0 that did not hold 0, here for
`addu r1, r0, r0`; and the value that is on its way to R0, here for `lwr r0, 0(r0)`. -/
theorem restart_differs :
    (∃ (m d d' : Machine machineH) (instr : Instruction), Retried m instr d d' ∧
      m.registers 0 = 0 ∧ ¬ PartialToZero instr m.registers ∧
      d'.registers BadVAddrReg ≠ d.registers BadVAddrReg) ∧
    (∃ (m d d' : Machine machineH) (instr : Instruction), Retried m instr d d' ∧
      ¬ PartialToZero instr m.registers ∧ d'.registers 1 ≠ d.registers 1) ∧
    ∃ (m d d' : Machine machineH) (instr : Instruction), Retried m instr d d' ∧
      m.registers 0 = 0 ∧ d'.registers LoadValueReg ≠ d.registers LoadValueReg := by
  have hp : ∀ (r : Registers) (instr : Instruction), r LoadReg = 0 → ∀ i : Fin NumTotalRegs,
      (i : ℕ) = (r LoadReg).toNat → i ≠ 0 → ¬ instr.Uses i := by
    intro r instr hr i hi h0
    rw [hr] at hi
    exact absurd (Fin.ext hi) h0
  refine ⟨⟨faultMachine (update (fun _ => 0) BadVAddrReg 4) 0, _, _, _,
      ⟨_, _, _, rfl, .fault (wordMachine (fun _ => 0) 0).translation rfl (.none _), rfl, hp _ _ rfl,
        rfl, rfl⟩, rfl, fun h => absurd h.1 (by decide), by decide⟩,
    ⟨faultMachine (update (fun _ => 0) 0 5) 0x00000821, _, _, _,
      ⟨_, _, _, rfl, .fault (wordMachine (fun _ => 0) 0).translation rfl (.none _), rfl, hp _ _ rfl,
        rfl, rfl⟩, fun h => absurd h.1 (by decide), by decide⟩,
    faultMachine (update (fun _ => 0) LoadValueReg 0x100) 0x98000000, _, _, _,
      ⟨_, _, _, rfl, .fault (wordMachine (fun _ => 0) 0).translation rfl (.none _), rfl, hp _ _ rfl,
        rfl, rfl⟩, rfl, by decide⟩

end Nachos
