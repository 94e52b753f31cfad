import Mathlib.Tactic

/-!
# The simulated machine: sizes, exceptions, files

The constants of `machine/machine.h` and `machine/disk.h`, the exceptions of the MIPS simulation,
the ways in which the kernel itself stops, and the two file operations of the UNIX stub of
`filesys/openfile.h` that the address-space code uses.

The numbers of frames, TLB entries and swap slots are a parameter (`Sizes`); `machineH` holds the
values of the source.  `PageSize` is the sector size, 128.
-/

namespace Nachos

/-- A byte of memory or of a file. -/
abbrev Byte := BitVec 8

/-- The largest `int`. -/
abbrev INTMAX : ℤ := 2147483647

/-- `PageSize = SectorSize`. -/
abbrev PageSize : ℕ := 128

/-- `UserStackSize` of `addrspace.h`. -/
abbrev UserStackSize : ℕ := 1024

/-- The sizes that `machine.h` fixes: frames of main memory, TLB entries, slots of the swap
file.  There is at least one frame and one TLB entry. -/
structure Sizes where
  NumPhysPages : ℕ
  TLBSize : ℕ
  SWAPSize : ℕ
  frames_pos : 0 < NumPhysPages
  tlb_pos : 0 < TLBSize

/-- The values in `machine.h`. -/
def machineH : Sizes := ⟨4, 4, 64, by decide, by decide⟩

/-- `divRoundUp` of `utility.h`. -/
def divRoundUp (n s : ℕ) : ℕ := n / s + if n % s > 0 then 1 else 0

/-- Rounding the parts up separately covers the whole. -/
theorem divRoundUp_add_le (m n : ℕ) :
    divRoundUp (m + n) PageSize ≤ divRoundUp m PageSize + divRoundUp n PageSize := by
  unfold divRoundUp PageSize
  split_ifs <;> omega

/-- A page that holds an address below `n` is below `divRoundUp n`. -/
theorem div_lt_divRoundUp {a n : ℕ} (h : a < n) : a / PageSize < divRoundUp n PageSize := by
  unfold divRoundUp PageSize
  split_ifs <;> omega

/-- Addresses in different pages are different. -/
theorem page_disjoint {m n o : ℕ} (h : m ≠ n) (ho : o < PageSize) :
    m * PageSize + o < n * PageSize ∨ n * PageSize + PageSize ≤ m * PageSize + o := by
  unfold PageSize at *
  omega

/-- The exceptions of `machine.h`. -/
inductive ExceptionType
  | noException
  | syscallException
  | pageFaultException
  | readOnlyException
  | busErrorException
  | addressErrorException
  | overflowException
  | illegalInstrException
  | numExceptionTypes
  deriving DecidableEq, Repr

/-- `enum IntStatus`. -/
inductive IntStatus
  | IntOff
  | IntOn
  deriving DecidableEq, Repr

/-- `enum MachineStatus`. -/
inductive MachineStatus
  | IdleMode
  | SystemMode
  | UserMode
  deriving DecidableEq, Repr

/-- The ways in which kernel code stops: the failing `ASSERT`s of the virtual memory code, one
constructor for each message, and the accesses that C++ leaves undefined. -/
inductive Fault
  | bitMapRange           -- `BitMap`: `which >= 0 && which < numBits`
  | invalidPhysicalPage   -- "Direccion fisica de memoria inválida"
  | swapFull              -- `writeIntoSwap`: "Espacio en SWAP NO disponible"
  | swapFileMissing       -- "No se pudo habir el archivo de SWAP"
  | invalidSwapPosition   -- `readFromSwap`: "invalid swap position"
  | invalidParams         -- `useThisTLBIndex`: "invalid params"
  | invalidIPTState       -- `getNextSCSWAP`: "Invalid IPT state"
  | invalidIPTValid       -- `getNextSCSWAP`: "Invalid IPT[%d].valid values, is false"
  | sourceFileMissing     -- `load`: "Unable to open source file"
  | invalidFreeFrame      -- `load`: "Invalid free frame"
  | invalidPageNumber     -- `load`: "Algo muy malo paso, el numero de pagina invalido!"
  | notNoff               -- `AddrSpace`: `noffH.noffMagic == NOFFMAGIC`
  | physAddrRange         -- `Translate`: `*physAddr + size <= MemorySize`
  | accessSize            -- `ReadMem`, `WriteMem`: the `default` of `switch (size)`
  -- the `ASSERT(false)` of `ExceptionHandler` for all but system calls and page faults
  | exception (which : ExceptionType)
  -- an array indexed outside its bounds, or a null pointer followed
  | wildAccess
  -- a loop that has not ended within the turns the model gives it
  | diverged
  deriving DecidableEq, Repr

/-! ### Files -/

/-- The contents of a UNIX file: its length, and a byte for every position below it. -/
structure File where
  length : ℕ
  byte : ℕ → Byte

namespace File

/-- The byte at a position, if the file reaches that far. -/
def get? (f : File) (k : ℕ) : Option Byte := if k < f.length then some (f.byte k) else none

/-- The file with the given bytes. -/
def ofList (l : List Byte) : File := ⟨l.length, fun k => l.getD k 0⟩

/-- `OpenFile::ReadAt` of the stub, with the destination inside the memory `mem`: `lseek`, then
one `read`, which stops at the end of the file and leaves the rest of the destination alone. -/
def readAt (f : File) (mem : ℕ → Byte) (into numBytes position : ℕ) : ℕ → Byte := fun a =>
  if into ≤ a ∧ a < into + numBytes then (f.get? (position + (a - into))).getD (mem a) else mem a

/-- `OpenFile::WriteAt` of the stub, with the source inside the memory `mem`: `lseek`, then one
`write`, which lengthens the file when it has to; a gap before `position` reads as zeros. -/
def writeAt (f : File) (mem : ℕ → Byte) (source numBytes position : ℕ) : File where
  length := if numBytes = 0 then f.length else max f.length (position + numBytes)
  byte k :=
    if position ≤ k ∧ k < position + numBytes then mem (source + (k - position))
    else if k < f.length then f.byte k else 0

theorem readAt_of_lt (f : File) (mem : ℕ → Byte) {into numBytes position o : ℕ}
    (ho : o < numBytes) :
    f.readAt mem into numBytes position (into + o) =
      (f.get? (position + o)).getD (mem (into + o)) := by
  rw [readAt, if_pos ⟨by omega, by omega⟩, show into + o - into = o by omega]

theorem readAt_outside (f : File) (mem : ℕ → Byte) {into numBytes position a : ℕ}
    (h : a < into ∨ into + numBytes ≤ a) : f.readAt mem into numBytes position a = mem a := by
  rw [readAt, if_neg (by omega)]

/-- What was written is there. -/
theorem get?_writeAt_of_lt (f : File) (mem : ℕ → Byte) {source numBytes position o : ℕ}
    (ho : o < numBytes) :
    (f.writeAt mem source numBytes position).get? (position + o) = some (mem (source + o)) := by
  have hlen : position + o < (f.writeAt mem source numBytes position).length := by
    simp only [writeAt]
    split_ifs <;> omega
  rw [get?, if_pos hlen]
  simp only [writeAt]
  rw [if_pos ⟨by omega, by omega⟩, show position + o - position = o by omega]

/-- Bytes outside the written range stay. -/
theorem get?_writeAt_outside (f : File) (mem : ℕ → Byte) {source numBytes position k : ℕ}
    {b : Byte} (h : k < position ∨ position + numBytes ≤ k) (hb : f.get? k = some b) :
    (f.writeAt mem source numBytes position).get? k = some b := by
  unfold get? at hb
  split_ifs at hb with hk
  have hlen : k < (f.writeAt mem source numBytes position).length := by
    simp only [writeAt]
    split_ifs <;> omega
  rw [get?, if_pos hlen]
  simp only [writeAt]
  rw [if_neg (by omega), if_pos hk]
  exact hb

/-- The 32-bit little-endian word at a position; bytes past the end read as zero. -/
def word (f : File) (k : ℕ) : ℕ :=
  ((f.get? k).getD 0).toNat + 256 * ((f.get? (k + 1)).getD 0).toNat +
    65536 * ((f.get? (k + 2)).getD 0).toNat + 16777216 * ((f.get? (k + 3)).getD 0).toNat

end File

/-! ### The object code format -/

/-- `NOFFMAGIC`. -/
def NOFFMAGIC : ℕ := 0xbadfad

/-- `Segment` of `noff.h`.  The fields are C `int`s; those of an object file are not negative. -/
structure Segment where
  virtualAddr : ℕ
  inFileAddr : ℕ
  size : ℕ
  deriving DecidableEq, Repr

/-- `NoffHeader`. -/
structure NoffHeader where
  noffMagic : ℕ
  code : Segment
  initData : Segment
  uninitData : Segment
  deriving DecidableEq, Repr

/-- The segment stored at position `k` of a file. -/
def File.segment (f : File) (k : ℕ) : Segment := ⟨f.word k, f.word (k + 4), f.word (k + 8)⟩

/-- `executable->ReadAt((char *)&noffH, sizeof(noffH), 0)`, on a little-endian host. -/
def File.noffHeader (f : File) : NoffHeader :=
  ⟨f.word 0, f.segment 4, f.segment 16, f.segment 28⟩

end Nachos
