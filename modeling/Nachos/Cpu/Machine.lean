import Nachos.Userprog.SysState

/-!
# The simulated processor

`class Machine` as the instructions of a user program see it: the registers, main memory, and the
translation of addresses by a TLB or by a page table.

* `Translate` of `machine/translate.cc` asserts that exactly one of `tlb` and `pageTable` is there;
  `Translation` has no other values.  `translate_eq` says that it does what the translation of the
  virtual memory build does.
* `RaiseException` of `machine/machine.cc` is followed up to the call of `ExceptionHandler`.  All
  its callers return as soon as it does, so that what an instruction does is over then: it is an
  `Except` value, with the machine that the handler finds as the error.
-/

namespace Nachos

open Function

variable {c : Sizes}

/-! ### Translation -/

/-- What translates addresses: `tlb`, or `pageTable` with `pageTableSize` entries. -/
inductive Translation (c : Sizes)
  | tlb (entries : Fin c.TLBSize → TranslationEntry)
  | pageTable (entries : List TranslationEntry)

namespace Translation

/-- The entry for page `vpn`, and how it is replaced. -/
def entry (vpn : ℕ) : Translation c →
    Except ExceptionType (TranslationEntry × (TranslationEntry → Translation c))
  | tlb entries =>
    match (List.finRange c.TLBSize).find? fun i =>
        (entries i).valid && (entries i).virtualPage == (vpn : ℤ) with
    | none => .error .pageFaultException
    | some i => .ok (entries i, fun e => tlb (update entries i e))
  | pageTable entries =>
    match entries[vpn]? with
    | none => .error .addressErrorException
    | some e =>
      if e.valid then .ok (e, fun e => pageTable (entries.set vpn e))
      else .error .pageFaultException

/-- `Machine::Translate`: an exception, or the physical address. -/
def translate (virtAddr : BitVec 32) (size : ℕ) (writing : Bool) (tr : Translation c) :
    Except Fault (Except ExceptionType ℕ × Translation c) :=
  if Misaligned virtAddr size then .ok (.error .addressErrorException, tr)
  else
    match tr.entry (pageOf virtAddr) with
    | .error exception => .ok (.error exception, tr)
    | .ok (entry, replace) =>
      if entry.readOnly && writing then .ok (.error .readOnlyException, tr)
      -- `pageFrame` is unsigned: a negative number is a large frame
      else if 0 ≤ entry.physicalPage ∧ entry.physicalPage < c.NumPhysPages then
        let physAddr := entry.physicalPage.toNat * PageSize + offsetOf virtAddr
        if physAddr + size ≤ c.NumPhysPages * PageSize then
          .ok (.ok physAddr, replace
            { entry with use := true, dirty := if writing then true else entry.dirty })
        else .error .physAddrRange
      else .ok (.error .busErrorException, tr)

end Translation

/-- The virtual memory build translates with its TLB. -/
theorem translate_eq (virtAddr : BitVec 32) (size : ℕ) (writing : Bool) (s : VM c) :
    translate virtAddr size writing s =
      match (Translation.tlb s.tlb).translate virtAddr size writing with
      | .error e => .error e
      | .ok (r, .tlb entries) => .ok (r, { s with tlb := entries })
      | .ok (r, .pageTable _) => .ok (r, s) := by
  unfold translate Translation.translate Translation.entry
  by_cases hal : Misaligned virtAddr size
  · simp only [if_pos hal]
  simp only [if_neg hal]
  cases hfind : (List.finRange c.TLBSize).find? fun i =>
      (s.tlb i).valid && (s.tlb i).virtualPage == (pageOf virtAddr : ℤ) with
  | none => rfl
  | some i =>
    simp only []
    split_ifs <;> rfl

/-! ### The processor -/

/-- `class Machine`. -/
structure Machine (c : Sizes) where
  registers : Registers
  mainMemory : ℕ → Byte
  translation : Translation c

/-- The ways in which an instruction stops the simulator. -/
inductive Crash
  -- an `ASSERT` of `Translate` or `ReadMem`, or a register outside `registers`
  | fault (e : Fault)
  -- `ASSERT((tmp & 0x3) == 0)` of LWL, LWR, SWL and SWR
  | partialWord
  -- the `ASSERT(false)` of the `default` of the switch
  | badOpCode
  -- a division that the host does not define
  | hostDivision
  deriving DecidableEq, Repr

/-- Why an instruction does not complete. -/
inductive Trap (c : Sizes)
  -- `ExceptionHandler(which)` is entered
  | raised (which : ExceptionType) (machine : Machine c)
  | crash (e : Crash)

/-- The general register `i` in `registers`. -/
def gp (i : Fin NumGPRegs) : Fin NumTotalRegs := i.castLE (by decide)

abbrev HiReg : Fin NumTotalRegs := 32

abbrev LoReg : Fin NumTotalRegs := 33

abbrev R31 : Fin NumTotalRegs := 31

namespace Machine

/-- `registers[num] = value`. -/
def setReg (num : Fin NumTotalRegs) (value : BitVec 32) (m : Machine c) : Machine c :=
  { m with registers := update m.registers num value }

@[simp] theorem setReg_self (num : Fin NumTotalRegs) (value : BitVec 32) (m : Machine c) :
    (m.setReg num value).registers num = value := update_self ..

theorem setReg_of_ne {num i : Fin NumTotalRegs} (h : i ≠ num) (value : BitVec 32)
    (m : Machine c) : (m.setReg num value).registers i = m.registers i :=
  update_of_ne h ..

/-- `Machine::DelayedLoad`. -/
def delayedLoad (nextReg nextValue : BitVec 32) (m : Machine c) : Except (Trap c) (Machine c) :=
  match m.registers.delayedLoad nextReg nextValue with
  | .ok r => .ok { m with registers := r }
  | .error e => .error (.crash (.fault e))

/-- The registers after a delayed load. -/
theorem delayedLoad_ok {m m' : Machine c} {nextReg nextValue : BitVec 32}
    (h : m.delayedLoad nextReg nextValue = .ok m') :
    ∃ hlt : (m.registers LoadReg).toNat < NumTotalRegs,
      m' = (((m.setReg ⟨_, hlt⟩ (m.registers LoadValueReg)).setReg LoadReg nextReg).setReg
        LoadValueReg nextValue).setReg 0 0 := by
  unfold delayedLoad Registers.delayedLoad at h
  by_cases hlt : (m.registers LoadReg).toNat < NumTotalRegs
  · rw [dif_pos hlt] at h
    cases h
    exact ⟨hlt, rfl⟩
  · rw [dif_neg hlt] at h
    cases h

theorem delayedLoad_error {m : Machine c} {nextReg nextValue : BitVec 32} {t : Trap c}
    (h : m.delayedLoad nextReg nextValue = .error t) :
    t = .crash (.fault .wildAccess) ∧ NumTotalRegs ≤ (m.registers LoadReg).toNat := by
  unfold delayedLoad Registers.delayedLoad at h
  by_cases hlt : (m.registers LoadReg).toNat < NumTotalRegs
  · rw [dif_pos hlt] at h
    cases h
  · rw [dif_neg hlt] at h
    cases h
    exact ⟨rfl, by omega⟩

/-- `Machine::RaiseException`, up to the call of the handler. -/
def raiseException {α : Type} (which : ExceptionType) (badVAddr : BitVec 32) (m : Machine c) :
    Except (Trap c) α := do
  let m ← (m.setReg BadVAddrReg badVAddr).delayedLoad 0 0
  .error (.raised which m)

/-- `Machine::ReadMem`. -/
def readMem (addr : BitVec 32) (size : ℕ) (m : Machine c) :
    Except (Trap c) (BitVec 32 × Machine c) :=
  match m.translation.translate addr size false with
  | .error e => .error (.crash (.fault e))
  | .ok (.error exception, tr) => { m with translation := tr }.raiseException exception addr
  | .ok (.ok physAddr, tr) =>
    match readValue m.mainMemory physAddr size with
    | .error e => .error (.crash (.fault e))
    | .ok value => .ok (value, { m with translation := tr })

/-- `Machine::WriteMem`. -/
def writeMem (addr : BitVec 32) (size : ℕ) (value : BitVec 32) (m : Machine c) :
    Except (Trap c) (Machine c) :=
  match m.translation.translate addr size true with
  | .error e => .error (.crash (.fault e))
  | .ok (.error exception, tr) => { m with translation := tr }.raiseException exception addr
  | .ok (.ok physAddr, tr) =>
    match writeValue m.mainMemory physAddr value size with
    | .error e => .error (.crash (.fault e))
    | .ok mem => .ok { m with mainMemory := mem, translation := tr }

end Machine

end Nachos
