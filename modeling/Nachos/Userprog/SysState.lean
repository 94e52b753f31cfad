import Nachos.Lib.Effect
import Nachos.Threads.Kernel
import Nachos.Userprog.Join
import Nachos.Userprog.Tables
import Nachos.VM.Access
import Nachos.VM.Spaces

/-!
# The kernel as a system call sees it

A thread has trapped.  `SysState` is what its system call reads and writes: the registers, the
memory, the tables of the thread and of the kernel.

* Where the thread can lose the CPU, `switchOut` saves its registers, lets the other threads do what
  they do, and restores its registers.  What they do, and what UNIX answers, is given by a `World`:
  the results hold for every one.
* Loops that another thread or a page fault may keep going have `fuel`.
* `BadVAddrReg` is also a field of `VM`; `RaiseException` writes both.
-/

namespace Nachos

open Function

/-! ### Registers -/

abbrev NumGPRegs : ℕ := 32

abbrev NumTotalRegs : ℕ := 40

instance : NeZero NumTotalRegs := ⟨by decide⟩

abbrev PCReg : Fin NumTotalRegs := 34

abbrev NextPCReg : Fin NumTotalRegs := 35

abbrev PrevPCReg : Fin NumTotalRegs := 36

abbrev LoadReg : Fin NumTotalRegs := 37

abbrev LoadValueReg : Fin NumTotalRegs := 38

abbrev BadVAddrReg : Fin NumTotalRegs := 39

/-- `int registers[NumTotalRegs]`. -/
abbrev Registers := Fin NumTotalRegs → BitVec 32

/-- `Machine::DelayedLoad`. -/
def Registers.delayedLoad (nextReg nextValue : BitVec 32) (r : Registers) :
    Except Fault Registers :=
  if h : (r LoadReg).toNat < NumTotalRegs then
    let r := update r ⟨(r LoadReg).toNat, h⟩ (r LoadValueReg)
    let r := update r LoadReg nextReg
    let r := update r LoadValueReg nextValue
    .ok (update r 0 0)
  else .error .wildAccess

/-! ### The state -/

/-- What is printed on the console. -/
inductive Output
  | text (s : List Byte)
  | number (n : ℤ)
  deriving DecidableEq, Repr

/-- The state. -/
structure SysState (c : Sizes) where
  registers : Registers
  status : MachineStatus
  vm : VM c
  -- the thread that trapped: its saved registers, its space and its tables
  currentThread : ℕ
  userRegisters : Registers
  space : ℕ
  mytable : NachosOpenFilesTable
  mySems : NachosSems
  -- the semaphores and the threads made so far
  semaphores : ℕ → Semaphore
  numSemaphores : ℕ
  numThreads : ℕ
  execFiles : Fin ExecTableSize → Option JoinS
  execFilesMap : BitMap ExecTableSize
  numConsoleCharsRead : ℤ
  numConsoleCharsWritten : ℤ
  output : List Output
  -- how often the thread has waited or called UNIX
  calls : ℕ

/-- The semaphore `Console`. -/
def Console : ℕ := 0

/-- Why a system call does not return. -/
inductive Stop
  | fault (e : Fault)
  -- "Unexpected syscall exception %d"
  | unexpectedSyscall (type : BitVec 32)
  -- `interrupt->Halt()`
  | halted
  -- the thread has ended
  | finished
  -- the thread never gets the CPU again
  | notResumed
  deriving DecidableEq, Repr

/-- Kernel code. -/
abbrev Sys (c : Sizes) := StateT (SysState c) (Except Stop)

/-- The other threads and UNIX; the number is that of the call. -/
structure World (c : Sizes) where
  -- the state in which the thread goes on, if it ever does
  others : ℕ → SysState c → Option (SysState c)
  -- only the thread itself writes its `userRegisters`
  others_userRegisters : ∀ n k k', others n k = some k' → k'.userRegisters = k.userRegisters
  getchar : ℕ → Byte
  unixOpen : ℕ → String → ℤ
  unixCreat : ℕ → String → ℤ
  unixClose : ℕ → ℤ → ℤ
  -- the bytes read, `none` if the call fails
  unixRead : ℕ → ℤ → ℕ → Option (List Byte)
  unixWrite : ℕ → ℤ → List Byte → ℤ

variable {c : Sizes}

/-! ### Parts of kernel code -/

/-- Code that fails with a `Fault`. -/
def orFault {α : Type} : Except Fault α → Sys c α
  | .ok a => pure a
  | .error e => throw (.fault e)

/-- `Machine::ReadRegister`. -/
def readRegister (num : Fin NumTotalRegs) : Sys c (BitVec 32) := do
  return (← get).registers num

/-- `Machine::WriteRegister`. -/
def writeRegister (num : Fin NumTotalRegs) (value : BitVec 32) : Sys c Unit :=
  modify fun k => { k with registers := update k.registers num value }

/-- The number of this call. -/
def call : Sys c ℕ :=
  modifyGet fun k => (k.calls, { k with calls := k.calls + 1 })

/-- `Thread::SaveUserState`. -/
def saveUserState : Sys c Unit := modify fun k => { k with userRegisters := k.registers }

/-- `Thread::RestoreUserState`. -/
def restoreUserState : Sys c Unit := modify fun k => { k with registers := k.userRegisters }

/-- The other threads run, until `currentThread` is this one again, and its space the current
one. -/
def othersRun (w : World c) (n : ℕ) : Sys c Unit := fun k =>
  match w.others n k with
  | some k' => .ok ((), { k' with
      currentThread := k.currentThread
      space := k.space
      vm := { k'.vm with current := some k.space } })
  | none => .error .notResumed

/-- `Scheduler::Run`, from the call to the return. -/
def switchOut (w : World c) : Sys c Unit := do
  let n ← call
  saveUserState
  othersRun w n
  restoreUserState

/-- Change a semaphore. -/
def modifySemaphore (sem : ℕ) (f : Semaphore → Semaphore) : Sys c Unit :=
  modify fun k => { k with semaphores := update k.semaphores sem (f (k.semaphores sem)) }

/-- `new Semaphore(debugName, initialValue)`. -/
def newSemaphore (initialValue : BitVec 32) : Sys c ℕ :=
  modifyGet fun k => (k.numSemaphores, { k with
    semaphores := update k.semaphores k.numSemaphores ⟨initialValue, []⟩
    numSemaphores := k.numSemaphores + 1 })

/-- `Semaphore::P`; the thread can lose the CPU in `Sleep` and when interrupts are enabled again. -/
def semP (w : World c) (sem : ℕ) : ℕ → Sys c Unit
  | 0 => throw (.fault .diverged)
  | fuel + 1 => do
    let k ← get
    if (k.semaphores sem).value = 0 then
      modifySemaphore sem fun s => { s with queue := s.queue ++ [k.currentThread] }
      switchOut w
      semP w sem fuel
    else
      modifySemaphore sem fun s => { s with value := s.value - 1 }
      switchOut w

/-- `Semaphore::V` with interrupts disabled. -/
def semSignal (sem : ℕ) : Sys c Unit :=
  modifySemaphore sem fun s => { value := s.value + 1, queue := s.queue.tail }

/-- `Semaphore::V`. -/
def semV (w : World c) (sem : ℕ) : Sys c Unit := do
  semSignal sem
  switchOut w

/-- `Semaphore::Destroy`. -/
def semDestroy (w : World c) (sem : ℕ) : Sys c Unit := do
  modifySemaphore sem fun s => { s with queue := [] }
  switchOut w

/-- What `RaiseException` does besides the memory: its registers, and the mode it leaves. -/
def raised (badVAddr : BitVec 32) : Sys c Unit := do
  writeRegister BadVAddrReg badVAddr
  let k ← get
  let registers ← orFault (k.registers.delayedLoad 0 0)
  modify fun k => { k with registers := registers, status := .UserMode }

theorem raised_eq_ok {badVAddr : BitVec 32} {k k' : SysState c} {u : Unit} :
    raised badVAddr k = .ok (u, k') ↔
      ∃ r, Registers.delayedLoad 0 0 (update k.registers BadVAddrReg badVAddr) = .ok r ∧
        k' = { k with registers := r, status := .UserMode } := by
  unfold raised
  rw [Fallible.bind_run (m := writeRegister BadVAddrReg badVAddr) rfl,
    Fallible.bind_run (m := get) rfl]
  dsimp only
  cases hr : Registers.delayedLoad 0 0 (update k.registers BadVAddrReg badVAddr) with
  | error e =>
    refine iff_of_false (fun h => by cases h) ?_
    rintro ⟨r, h, -⟩
    cases h
  | ok r =>
    constructor
    · intro h
      cases h
      exact ⟨r, rfl, rfl⟩
    · rintro ⟨r', h, rfl⟩
      cases h
      rfl

/-- A page fault was served on the way. -/
def missed (addr : BitVec 32) (writing : Bool) (vm : VM c) : Bool :=
  match translate addr 1 writing vm with
  | .ok (.error _, _) => true
  | _ => false

/-- `Machine::SafeReadMem` of a byte. -/
def sysReadMem (fuel : ℕ) (addr : BitVec 32) : Sys c (BitVec 32) := do
  let k ← get
  let (value, vm) ← orFault (safeReadMem addr 1 fuel k.vm)
  modify fun k => { k with vm := vm }
  if missed addr false k.vm then raised addr
  return value

/-- `Machine::SafeWriteMem` of a byte. -/
def sysWriteMem (fuel : ℕ) (addr value : BitVec 32) : Sys c Unit := do
  let k ← get
  let vm ← orFault (safeWriteMem addr 1 value fuel k.vm)
  modify fun k => { k with vm := vm }
  if missed addr true k.vm then raised addr

end Nachos
