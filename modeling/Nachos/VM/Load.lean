import Nachos.VM.Replacement

/-!
# `AddrSpace::load`

The page-fault service routine, branch by branch: a page that is neither valid nor dirty comes
from the executable (code, initialised data) or is simply given a frame (uninitialised data and
stack); a page that is dirty but not valid comes from the swap file; a page in memory only needs
a TLB entry.  Each of the first four kinds asks for a free frame and otherwise evicts the page
that the clock selects, which is written to the swap file when it is dirty.

`loadCode`, `loadInitData`, `loadNoInitData` and `loadSwapped` are the four bodies as they stand
in the source.  They differ in how the frame is filled, in the order in which a clean victim is
taken down, and in that only `loadNoInitData` clears a frame, and only one taken from a clean
victim.
-/

namespace Nachos

open Function

variable {c : Sizes}

/-- The `ReadAt` of a page from the executable: both the code and the data branch read at
`noffH.code.inFileAddr + PageSize*vpn`. -/
def readExecutable (executable : File) (freeFrame : Fin c.NumPhysPages) (vpn : ℕ) (s : VM c) :
    VM c :=
  { s with mainMemory := executable.readAt s.mainMemory (freeFrame * PageSize) PageSize
            (executable.noffHeader.code.inFileAddr + PageSize * vpn) }

/-- `int tlbSPace = getNextSCTLB(); useThisTLBIndex( tlbSPace, vpn );` -/
def updateTLB (sp vpn : ℕ) (s : VM c) : Except Fault (VM c) := do
  let (tlbSpace, s) ← getNextSCTLB sp s
  useThisTLBIndex sp tlbSpace vpn s

/-- `MemBitMap->Find()`, with the check that a frame was found. -/
def findFreeFrame (s : VM c) : Except Fault (Fin c.NumPhysPages × VM c) :=
  match s.MemBitMap.find with
  | (some freeFrame, MemBitMap) => .ok (freeFrame, { s with MemBitMap := MemBitMap })
  | (none, _) => .error .invalidFreeFrame

/-- The entry that `IPT[indexSWAPFIFO]` points to. -/
def victimRef (s : VM c) : Except Fault PTRef :=
  match s.IPT s.indexSWAPFIFO with
  | some r => .ok r
  | none => .error .wildAccess

/-- `indexSWAPFIFO = getNextSCSWAP(); updateSwapVictimInfo( indexSWAPFIFO );` -/
def selectVictim (s : VM c) : Except Fault (VM c) := do
  let (x, s) ← getNextSCSWAP s
  updateSwapVictimInfo x { s with indexSWAPFIFO := x }

/-- A page of the code segment. -/
def loadCode (sp vpn : ℕ) (executable : File) (s : VM c) : Except Fault (VM c) :=
  match s.MemBitMap.find with
  | (some freeFrame, MemBitMap) => do
    let s := { s with MemBitMap := MemBitMap }
    let s := s.modifyEntry ⟨sp, vpn⟩ fun e => { e with physicalPage := (freeFrame : ℕ) }
    let s := readExecutable executable freeFrame vpn s
    let s := s.modifyEntry ⟨sp, vpn⟩ fun e => { e with valid := true }
    let s := { s with IPT := update s.IPT freeFrame (some ⟨sp, vpn⟩) }
    updateTLB sp vpn s
  | (none, _) => do
    let s ← selectVictim s
    let r ← victimRef s
    if (s.pageTable r).dirty then
      let s ← writeIntoSwap (s.pageTable r).physicalPage s
      let (freeFrame, s) ← findFreeFrame s
      let s := s.modifyEntry ⟨sp, vpn⟩ fun e => { e with physicalPage := (freeFrame : ℕ) }
      let s := readExecutable executable freeFrame vpn s
      let s := s.modifyEntry ⟨sp, vpn⟩ fun e => { e with valid := true }
      let s := { s with IPT := update s.IPT freeFrame (some ⟨sp, vpn⟩) }
      updateTLB sp vpn s
    else
      let oldPhysicalPage := (s.pageTable r).physicalPage
      let s := s.modifyEntry r fun e => { e with valid := false, physicalPage := -1 }
      let MemBitMap ← s.MemBitMap.clear oldPhysicalPage
      let (freeFrame, s) ← findFreeFrame { s with MemBitMap := MemBitMap }
      let s := s.modifyEntry ⟨sp, vpn⟩ fun e => { e with physicalPage := (freeFrame : ℕ) }
      let s := readExecutable executable freeFrame vpn s
      let s := s.modifyEntry ⟨sp, vpn⟩ fun e => { e with valid := true }
      let s := { s with IPT := update s.IPT freeFrame (some ⟨sp, vpn⟩) }
      updateTLB sp vpn s

/-- A page of the initialised data segment: a clean victim loses its bit in `MemBitMap` first. -/
def loadInitData (sp vpn : ℕ) (executable : File) (s : VM c) : Except Fault (VM c) :=
  match s.MemBitMap.find with
  | (some freeFrame, MemBitMap) => do
    let s := { s with MemBitMap := MemBitMap }
    let s := s.modifyEntry ⟨sp, vpn⟩ fun e => { e with physicalPage := (freeFrame : ℕ) }
    let s := readExecutable executable freeFrame vpn s
    let s := s.modifyEntry ⟨sp, vpn⟩ fun e => { e with valid := true }
    let s := { s with IPT := update s.IPT freeFrame (some ⟨sp, vpn⟩) }
    updateTLB sp vpn s
  | (none, _) => do
    let s ← selectVictim s
    let r ← victimRef s
    if (s.pageTable r).dirty then
      let s ← writeIntoSwap (s.pageTable r).physicalPage s
      let (freeFrame, s) ← findFreeFrame s
      let s := s.modifyEntry ⟨sp, vpn⟩ fun e => { e with physicalPage := (freeFrame : ℕ) }
      let s := readExecutable executable freeFrame vpn s
      let s := s.modifyEntry ⟨sp, vpn⟩ fun e => { e with valid := true }
      let s := { s with IPT := update s.IPT freeFrame (some ⟨sp, vpn⟩) }
      updateTLB sp vpn s
    else
      let MemBitMap ← s.MemBitMap.clear (s.pageTable r).physicalPage
      let s := { s with MemBitMap := MemBitMap }
      let s := s.modifyEntry r fun e => { e with valid := false, physicalPage := -1 }
      let (freeFrame, s) ← findFreeFrame s
      let s := s.modifyEntry ⟨sp, vpn⟩ fun e => { e with physicalPage := (freeFrame : ℕ) }
      let s := readExecutable executable freeFrame vpn s
      let s := s.modifyEntry ⟨sp, vpn⟩ fun e => { e with valid := true }
      let s := { s with IPT := update s.IPT freeFrame (some ⟨sp, vpn⟩) }
      updateTLB sp vpn s

/-- A page of the uninitialised data segment or of the stack: nothing is read, and only the frame
of a clean victim is cleared. -/
def loadNoInitData (sp vpn : ℕ) (s : VM c) : Except Fault (VM c) :=
  match s.MemBitMap.find with
  | (some freeFrame, MemBitMap) => do
    let s := { s with MemBitMap := MemBitMap }
    let s := s.modifyEntry ⟨sp, vpn⟩ fun e =>
      { e with physicalPage := (freeFrame : ℕ), valid := true }
    let s := { s with IPT := update s.IPT freeFrame (some ⟨sp, vpn⟩) }
    updateTLB sp vpn s
  | (none, _) => do
    let s ← selectVictim s
    let r ← victimRef s
    if (s.pageTable r).dirty then
      let s ← writeIntoSwap (s.pageTable r).physicalPage s
      let (freeFrame, s) ← findFreeFrame s
      let s := s.modifyEntry ⟨sp, vpn⟩ fun e =>
        { e with physicalPage := (freeFrame : ℕ), valid := true }
      let s := { s with IPT := update s.IPT freeFrame (some ⟨sp, vpn⟩) }
      updateTLB sp vpn s
    else
      let oldPhysicalPage := (s.pageTable r).physicalPage
      let s := s.modifyEntry r fun e => { e with valid := false, physicalPage := -1 }
      let MemBitMap ← s.MemBitMap.clear oldPhysicalPage
      let s ← clearPhysicalPage oldPhysicalPage { s with MemBitMap := MemBitMap }
      let (freeFrame, s) ← findFreeFrame s
      let s := s.modifyEntry ⟨sp, vpn⟩ fun e =>
        { e with physicalPage := (freeFrame : ℕ), valid := true }
      let s := { s with IPT := update s.IPT freeFrame (some ⟨sp, vpn⟩) }
      updateTLB sp vpn s

/-- A page in the swap file: `physicalPage` is its slot. -/
def loadSwapped (sp vpn : ℕ) (s : VM c) : Except Fault (VM c) :=
  match s.MemBitMap.find with
  | (some freeFrame, MemBitMap) => do
    let s := { s with MemBitMap := MemBitMap }
    let oldSwapPageAddr := (s.pageTable ⟨sp, vpn⟩).physicalPage
    let s := s.modifyEntry ⟨sp, vpn⟩ fun e => { e with physicalPage := (freeFrame : ℕ) }
    let s ← readFromSwap freeFrame oldSwapPageAddr s
    let s := s.modifyEntry ⟨sp, vpn⟩ fun e => { e with valid := true }
    let s := { s with IPT := update s.IPT freeFrame (some ⟨sp, vpn⟩) }
    updateTLB sp vpn s
  | (none, _) => do
    let s ← selectVictim s
    let r ← victimRef s
    if (s.pageTable r).dirty then
      let s ← writeIntoSwap (s.pageTable r).physicalPage s
      let (freeFrame, s) ← findFreeFrame s
      let oldSwapPageAddr := (s.pageTable ⟨sp, vpn⟩).physicalPage
      let s := s.modifyEntry ⟨sp, vpn⟩ fun e => { e with physicalPage := (freeFrame : ℕ) }
      let s ← readFromSwap freeFrame oldSwapPageAddr s
      let s := s.modifyEntry ⟨sp, vpn⟩ fun e => { e with valid := true }
      let s := { s with IPT := update s.IPT freeFrame (some ⟨sp, vpn⟩) }
      updateTLB sp vpn s
    else
      let oldPhysicalPage := (s.pageTable r).physicalPage
      let s := s.modifyEntry r fun e => { e with valid := false, physicalPage := -1 }
      let MemBitMap ← s.MemBitMap.clear oldPhysicalPage
      let (freeFrame, s) ← findFreeFrame { s with MemBitMap := MemBitMap }
      let oldSwapPageAddr := (s.pageTable ⟨sp, vpn⟩).physicalPage
      let s := s.modifyEntry ⟨sp, vpn⟩ fun e => { e with physicalPage := (freeFrame : ℕ) }
      let s ← readFromSwap freeFrame oldSwapPageAddr s
      let s := s.modifyEntry ⟨sp, vpn⟩ fun e => { e with valid := true }
      let s := { s with IPT := update s.IPT freeFrame (some ⟨sp, vpn⟩) }
      updateTLB sp vpn s

/-- `AddrSpace::load`.  The table is read at `vpn` before anything checks it. -/
def load (sp vpn : ℕ) (s : VM c) : Except Fault (VM c) :=
  let space := s.spaces sp
  if space.numPages ≤ vpn then .error .wildAccess
  else
    let e := s.pageTable ⟨sp, vpn⟩
    if !e.valid && !e.dirty then
      let s := { s with numPageFaults := s.numPageFaults + 1 }
      match s.files space.filename with
      | none => .error .sourceFileMissing
      | some executable =>
        if vpn < space.initData then loadCode sp vpn executable s
        else if vpn < space.noInitData then loadInitData sp vpn executable s
        else if vpn < space.numPages then loadNoInitData sp vpn s
        else .error .invalidPageNumber
    else if !e.valid && e.dirty then loadSwapped sp vpn s
    else updateTLB sp vpn s

end Nachos
