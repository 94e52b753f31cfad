import Nachos.VM.State

/-!
# Replacement: the TLB and the frames

`getNextSCTLB`, `useThisTLBIndex`, `saveVictimTLBInfo`, `getNextSCSWAP`, `updateSwapVictimInfo`,
`writeIntoSwap`, `readFromSwap` and `clearPhysicalPage` of `userprog/addrspace.cc`, in the order
of the source.  The argument `sp` is `this`, the address space whose page table the method sees.
-/

namespace Nachos

open Clock

variable {c : Sizes}

/-- `AddrSpace::clearPhysicalPage`. -/
def clearPhysicalPage (physicalPage : ℤ) (s : VM c) : Except Fault (VM c) :=
  if 0 ≤ physicalPage ∧ physicalPage < c.NumPhysPages then
    .ok { s with mainMemory := fun a =>
            if physicalPage.toNat * PageSize ≤ a ∧ a < physicalPage.toNat * PageSize + PageSize
            then 0 else s.mainMemory a }
  else .error .invalidPhysicalPage

/-- `AddrSpace::writeIntoSwap`. -/
def writeIntoSwap (physicalPageVictim : ℤ) (s : VM c) : Except Fault (VM c) :=
  let (swapPage, SWAPBitMap) := s.SWAPBitMap.find
  if h : 0 ≤ physicalPageVictim ∧ physicalPageVictim < c.NumPhysPages then
    match swapPage, s.swapFile, s.IPT ⟨physicalPageVictim.toNat, by omega⟩ with
    | none, _, _ => .error .swapFull
    | some _, none, _ => .error .swapFileMissing
    | some _, some _, none => .error .wildAccess
    | some swapPage, some swapFile, some r =>
      let s := s.modifyEntry r fun e => { e with valid := false, physicalPage := (swapPage : ℕ) }
      .ok { s with
        SWAPBitMap := SWAPBitMap
        swapFile := swapFile.writeAt s.mainMemory (physicalPageVictim.toNat * PageSize) PageSize
          (swapPage * PageSize)
        -- the source clears the bit of `indexSWAPFIFO`, not of its argument
        MemBitMap := s.MemBitMap.clearBit s.indexSWAPFIFO }
  else .error .invalidPhysicalPage

/-- `AddrSpace::readFromSwap`. -/
def readFromSwap (physicalPage : Fin c.NumPhysPages) (swapPage : ℤ) (s : VM c) :
    Except Fault (VM c) := do
  let SWAPBitMap ← s.SWAPBitMap.clear swapPage
  if ¬ (0 ≤ swapPage ∧ swapPage < c.SWAPSize) then .error .invalidSwapPosition
  else match s.swapFile with
    | none => .error .swapFileMissing
    | some swapFile =>
      .ok { s with
        SWAPBitMap := SWAPBitMap
        mainMemory := swapFile.readAt s.mainMemory (physicalPage * PageSize) PageSize
          (swapPage.toNat * PageSize)
        numPageFaults := s.numPageFaults + 1 }

/-- `AddrSpace::saveVictimTLBInfo`: a `virtualPage` outside the table is a wild store. -/
def saveVictimTLBInfo (sp : ℕ) (tlbIndex : Fin c.TLBSize) (oldUse : Bool) (s : VM c) :
    Except Fault (VM c) :=
  let t := s.tlb tlbIndex
  if 0 ≤ t.virtualPage ∧ t.virtualPage < (s.spaces sp).numPages then
    .ok (s.modifyEntry ⟨sp, t.virtualPage.toNat⟩ fun e =>
      { e with use := if oldUse then true else t.use, dirty := t.dirty })
  else .error .wildAccess

/-- The `while` loop of `getNextSCTLB`. -/
def getNextSCTLBLoop (sp : ℕ) : ℕ → VM c → Except Fault (Fin c.TLBSize × VM c)
  | 0, _ => .error .diverged
  | fuel + 1, s =>
    let x := s.indexTLBSndChc
    if (s.tlb x).use then do
      let s ← saveVictimTLBInfo sp x true (s.setTLB x { s.tlb x with use := false })
      getNextSCTLBLoop sp fuel { s with indexTLBSndChc := next x }
    else do
      let s ← saveVictimTLBInfo sp x false s
      .ok (x, { s with indexTLBSndChc := next x })

/-- `AddrSpace::getNextSCTLB`: the first invalid entry, else the second-chance victim. -/
def getNextSCTLB (sp : ℕ) (s : VM c) : Except Fault (Fin c.TLBSize × VM c) :=
  match (List.finRange c.TLBSize).find? fun x => !(s.tlb x).valid with
  | some x => .ok (x, s)
  | none => getNextSCTLBLoop sp (c.TLBSize + 1) s

/-- `AddrSpace::useThisTLBIndex`: all six fields are copied. -/
def useThisTLBIndex (sp : ℕ) (tlbIndex : Fin c.TLBSize) (vpn : ℕ) (s : VM c) :
    Except Fault (VM c) :=
  if vpn < (s.spaces sp).numPages then .ok (s.setTLB tlbIndex (s.pageTable ⟨sp, vpn⟩))
  else .error .invalidParams

/-- The `while` loop of `getNextSCSWAP`. -/
def getNextSCSWAPLoop : ℕ → VM c → Except Fault (Fin c.NumPhysPages × VM c)
  | 0, _ => .error .diverged
  | fuel + 1, s =>
    let x := s.indexSWAPSndChc
    match s.IPT x with
    | none => .error .invalidIPTState
    | some r =>
      if (s.pageTable r).valid = false then .error .invalidIPTValid
      else if (s.pageTable r).use then
        getNextSCSWAPLoop fuel
          { s.modifyEntry r fun e => { e with use := false } with
            indexSWAPSndChc := next x }
      else .ok (x, { s with indexSWAPSndChc := next x })

/-- `AddrSpace::getNextSCSWAP`. -/
def getNextSCSWAP (s : VM c) : Except Fault (Fin c.NumPhysPages × VM c) :=
  getNextSCSWAPLoop (c.NumPhysPages + 1) s

/-- `AddrSpace::updateSwapVictimInfo`: the first TLB entry on the victim's frame is dropped, and
its bits go to the page table. -/
def updateSwapVictimInfo (swapIndex : Fin c.NumPhysPages) (s : VM c) : Except Fault (VM c) :=
  match s.IPT swapIndex with
  | none => .error .wildAccess
  | some r =>
    match (List.finRange c.TLBSize).find? fun i =>
        (s.tlb i).valid && (s.tlb i).physicalPage == (s.pageTable r).physicalPage with
    | none => .ok s
    | some i =>
      let t := s.tlb i
      .ok ((s.setTLB i { t with valid := false }).modifyEntry r fun e =>
        { e with use := t.use, dirty := t.dirty })

end Nachos
