import Nachos.Machine.BitMap
import Nachos.Lib.Clock

/-!
# The state of the virtual memory build

The globals of `threads/system.cc` that `userprog/addrspace.cc` works on when it is compiled with
`-DVM -DUSE_TLB`, together with the parts of `Machine` it reaches: main memory, the TLB and the
register with the failing address.

* Page tables live on a heap of entries: `⟨sp, v⟩ : PTRef` is the address
  `&(pageTable[v])` in the address space number `sp`, and the inverted table `IPT` holds such
  addresses.  An address space keeps its limits and the name of its executable (`AddrSpace`).
* `physicalPage` and `virtualPage` are C `int`s: `-1` is a value of the first, and the TLB entries
  of `new TranslationEntry[TLBSize]` hold whatever was in memory before.
* The clock hands range over `Fin`, which is what the `ASSERT`s on `indexSWAPSndChc`,
  `freeSpace` and `tlbIndex` check.
-/

namespace Nachos

/-- `class TranslationEntry`. -/
structure TranslationEntry where
  virtualPage : ℤ
  physicalPage : ℤ
  valid : Bool
  readOnly : Bool
  use : Bool
  dirty : Bool
  deriving DecidableEq, Repr

/-- The address of a page-table entry: entry `vpn` of the table of address space `space`. -/
structure PTRef where
  space : ℕ
  vpn : ℕ
  deriving DecidableEq, Repr

/-- `class AddrSpace` without its page table. -/
structure AddrSpace where
  initData : ℕ
  noInitData : ℕ
  stack : ℕ
  numPages : ℕ
  filename : String
  deriving DecidableEq, Repr

structure VM (c : Sizes) where
  mainMemory : ℕ → Byte
  tlb : Fin c.TLBSize → TranslationEntry
  BadVAddrReg : BitVec 32
  MemBitMap : BitMap c.NumPhysPages
  SWAPBitMap : BitMap c.SWAPSize
  IPT : Fin c.NumPhysPages → Option PTRef
  indexTLBSndChc : Fin c.TLBSize
  indexSWAPSndChc : Fin c.NumPhysPages
  indexSWAPFIFO : Fin c.NumPhysPages
  numPageFaults : ℕ
  -- the address spaces made so far, `0, …, numSpaces - 1`; the others have no page
  spaces : ℕ → AddrSpace
  numSpaces : ℕ
  pageTable : PTRef → TranslationEntry
  -- the address space of `currentThread`, if it has one
  current : Option ℕ
  -- what `fileSystem->Open` finds: the executables, and `SWAPFILENAME`
  files : String → Option File
  swapFile : Option File

namespace VM

variable {c : Sizes}

/-- Update the entry at `r`. -/
@[simp] def modifyEntry (s : VM c) (r : PTRef) (g : TranslationEntry → TranslationEntry) : VM c :=
  { s with pageTable := Function.update s.pageTable r (g (s.pageTable r)) }

/-- Overwrite TLB entry `i`. -/
@[simp] def setTLB (s : VM c) (i : Fin c.TLBSize) (e : TranslationEntry) : VM c :=
  { s with tlb := Function.update s.tlb i e }

/-- `r` is the address of an entry of an existing page table. -/
def HasEntry (s : VM c) (r : PTRef) : Prop := r.vpn < (s.spaces r.space).numPages

/-- TLB entry `i` maps page `v`. -/
def Maps (s : VM c) (i : Fin c.TLBSize) (v : ℕ) : Prop :=
  (s.tlb i).valid = true ∧ (s.tlb i).virtualPage = v
  deriving Decidable

end VM

end Nachos
