import Nachos.VM.Run

/-!
# Serving a page fault

Runs in which address spaces are also made by `Fork`.  After a `Fork` a frame may be designated by
entries of several tables, and the TLB may keep an entry of a page that has lost its frame, so that
frame ownership does not hold.  What is left of it (`Shared`) is enough for the page-fault service
routine to make progress:

* the frames that are marked are those in the `IPT`, whose entries are valid, so that the clock
  comes to an end and its victim has the frame that is taken away;
* a valid TLB entry names a page of the running space and a frame of memory.

`Shared.load` says what `load` does in such a state, `AnyReachable.shared` that all states of all
runs are such.  What follows for the accesses:

* `fault_served`: inside the space an access is tried at most twice;
* `wild_rejected_iff`: outside it `load` reads the page table beyond its end.
-/

namespace Nachos

open Function Transition Fallible

variable {c : Sizes}

/-! ### Runs with `Fork` -/

/-- A step of a run: one of `Action`, or (`none`) a `Fork` by the running space. -/
def AnyStep (s : VM c) : Option (Action c) → VM c → Prop
  | some a, s' => Step s a s'
  | none, s' => ∃ p, s.current = some p ∧ s' = copyAddrSpace p s

/-- The states of all runs with `Exec`, `Fork`, accesses and context switches. -/
def AnyReachable (s : VM c) : Prop := Reach Booted AnyStep s

theorem Reachable.any {s : VM c} (h : Reachable s) : AnyReachable s :=
  Reach.simulation id (fun _ h0 => h0) (fun _ a _ _ hst => Or.inr ⟨some a, hst⟩) h

/-! ### The invariant -/

/-- Frames that were never used are zero. -/
def FreeZero (s : VM c) : Prop :=
  ∀ f : Fin c.NumPhysPages, s.MemBitMap.isSet f = false → ∀ o < PageSize,
    s.mainMemory (f * PageSize + o) = 0

/-- A step that writes in a marked frame only, and frees none. -/
theorem FreeZero.of_frame {s s' : VM c} (h : FreeZero s) (f : Fin c.NumPhysPages)
    (hf : s'.MemBitMap.isSet f = true)
    (hbit : ∀ g : Fin c.NumPhysPages, s'.MemBitMap.isSet g = false → s.MemBitMap.isSet g = false)
    (hmem : ∀ a, a < f * PageSize ∨ f * PageSize + PageSize ≤ a →
      s'.mainMemory a = s.mainMemory a) : FreeZero s' := by
  intro g hg o ho
  have hgf : (g : ℕ) ≠ f := by
    intro he
    rw [he, hf] at hg
    cases hg
  rw [hmem _ (page_disjoint hgf ho)]
  exact h g (hbit g hg) o ho

/-- What `Fork` leaves of frame ownership, with the frame `hole` (if any) set aside. -/
structure Shared (hole : Option (Fin c.NumPhysPages)) (s : VM c) : Prop
    extends FrameTable hole s where
  frame : ∀ r, s.HasEntry r → (s.pageTable r).valid = true →
    ∃ f : Fin c.NumPhysPages, (s.pageTable r).physicalPage = (f : ℕ) ∧
      s.MemBitMap.isSet f = true
  tlb : ∀ i, (s.tlb i).valid = true → ∃ sp v, s.current = some sp ∧ s.HasEntry ⟨sp, v⟩ ∧
    (s.tlb i).virtualPage = v ∧ (s.tlb i).readOnly = false ∧
    ∃ f : Fin c.NumPhysPages, (s.tlb i).physicalPage = (f : ℕ) ∧ s.MemBitMap.isSet f = true
  free : FreeZero s

theorem shared_boot (files : String → Option File) (swapFile : Option File)
    (words words' : ℕ → BitVec 32) (fresh : Fin c.TLBSize → TranslationEntry) :
    Shared none (boot files swapFile words words' fresh) :=
  { (frames_boot files swapFile words words' fresh).frameTable with
    frame := fun r h => absurd h (Nat.not_lt_zero _)
    tlb := fun i hi => by cases hi
    free := fun f _ o _ => rfl }

/-- `s'` differs from `s` in use and dirty bits, and in TLB entries that are no longer valid. -/
structure Dropped (s s' : VM c) : Prop extends SameSpaces s s' where
  mainMemory : s'.mainMemory = s.mainMemory
  swapFile : s'.swapFile = s.swapFile
  SWAPBitMap : s'.SWAPBitMap = s.SWAPBitMap
  MemBitMap : s'.MemBitMap = s.MemBitMap
  IPT : s'.IPT = s.IPT
  tlb : ∀ i, (s'.tlb i).valid = true → (s.tlb i).valid = true ∧
    (s'.tlb i).virtualPage = (s.tlb i).virtualPage ∧
    (s'.tlb i).physicalPage = (s.tlb i).physicalPage ∧ (s'.tlb i).readOnly = (s.tlb i).readOnly
  entry : ∀ r, s'.pageTable r =
    { s.pageTable r with use := (s'.pageTable r).use, dirty := (s'.pageTable r).dirty }

theorem BitsOnly.dropped {s s' : VM c} (h : BitsOnly s s') : Dropped s s' where
  spaces := h.spaces
  numSpaces := h.numSpaces
  current := h.current
  files := h.files
  mainMemory := h.mainMemory
  swapFile := h.swapFile
  SWAPBitMap := h.SWAPBitMap
  MemBitMap := h.MemBitMap
  IPT := h.IPT
  tlb i hi := ⟨(h.tlb_valid i).symm.trans hi, h.tlb_virtualPage i, h.tlb_physicalPage i,
    h.tlb_readOnly i⟩
  entry := h.entry

theorem Dropped.trans {s s' s'' : VM c} (h : Dropped s s') (h' : Dropped s' s'') :
    Dropped s s'' where
  toSameSpaces := h.toSameSpaces.trans h'.toSameSpaces
  mainMemory := h'.mainMemory.trans h.mainMemory
  swapFile := h'.swapFile.trans h.swapFile
  SWAPBitMap := h'.SWAPBitMap.trans h.SWAPBitMap
  MemBitMap := h'.MemBitMap.trans h.MemBitMap
  IPT := h'.IPT.trans h.IPT
  tlb i hi := by
    obtain ⟨hv', hvp', hpp', hro'⟩ := h'.tlb i hi
    obtain ⟨hv, hvp, hpp, hro⟩ := h.tlb i hv'
    exact ⟨hv, hvp'.trans hvp, hpp'.trans hpp, hro'.trans hro⟩
  entry r := by rw [h'.entry r, h.entry r]

/-- What `updateSwapVictimInfo` does with the TLB entry it finds. -/
theorem dropped_setTLB (s : VM c) (i : Fin c.TLBSize) (r : PTRef) (use dirty : Bool) :
    Dropped s ((s.setTLB i { s.tlb i with valid := false }).modifyEntry r fun e =>
      { e with use := use, dirty := dirty }) where
  spaces := rfl
  numSpaces := rfl
  current := rfl
  files := rfl
  mainMemory := rfl
  swapFile := rfl
  SWAPBitMap := rfl
  MemBitMap := rfl
  IPT := rfl
  tlb j hj := by
    by_cases hji : j = i
    · subst hji
      simp at hj
    · simp only [VM.setTLB, VM.modifyEntry, update_of_ne hji] at hj ⊢
      exact ⟨hj, trivial, trivial, trivial⟩
  entry q := by
    by_cases hq : q = r
    · subst hq
      simp
    · simp [update_of_ne hq]

/-! ### The frame that is taken -/

/-- The dirty bit of the page `rv` in frame `x` as `updateSwapVictimInfo` finds it: that of the
first TLB entry for the frame, whatever page it is for, or else that of the page table. -/
def frameDirty (s : VM c) (x : Fin c.NumPhysPages) (rv : PTRef) : Bool :=
  match (List.finRange c.TLBSize).find? fun i =>
      (s.tlb i).valid && (s.tlb i).physicalPage == ((x : ℕ) : ℤ) with
  | some i => (s.tlb i).dirty
  | none => (s.pageTable rv).dirty

/-- Use bits do not count. -/
theorem BitsOnly.frameDirty {s s' : VM c} (h : BitsOnly s s') {rv : PTRef}
    (hd : (s'.pageTable rv).dirty = (s.pageTable rv).dirty) (x : Fin c.NumPhysPages) :
    frameDirty s' x rv = Nachos.frameDirty s x rv := by
  simp only [Nachos.frameDirty, h.tlb_valid, h.tlb_physicalPage, h.tlb_dirty, hd]

theorem updateSwapVictimInfo_dirty {s s' : VM c} {x : Fin c.NumPhysPages} {rv : PTRef}
    (hi : s.IPT x = some rv) (hpp : (s.pageTable rv).physicalPage = (x : ℕ))
    (hok : updateSwapVictimInfo x s = .ok s') : (s'.pageTable rv).dirty = frameDirty s x rv := by
  simp only [updateSwapVictimInfo, hi, hpp] at hok
  unfold frameDirty
  cases hfind : (List.finRange c.TLBSize).find? fun i =>
      (s.tlb i).valid && (s.tlb i).physicalPage == ((x : ℕ) : ℤ) with
  | none =>
    rw [hfind] at hok
    cases hok
    rfl
  | some i =>
    rw [hfind] at hok
    cases hok
    simp

/-- The frame that `load` will use: the first free one, else that of the clock's victim. -/
def takenFrame (s : VM c) : Fin c.NumPhysPages :=
  match s.MemBitMap.find with
  | (some f, _) => f
  | (none, _) => clockVictim s

/-- There is no free frame, and the page that the clock selects is taken for a clean one. -/
def CleanVictim (s : VM c) : Prop :=
  (∀ f : Fin c.NumPhysPages, s.MemBitMap.isSet f = true) ∧
    ∃ rv, s.IPT (clockVictim s) = some rv ∧ frameDirty s (clockVictim s) rv = false

instance (s : VM c) : Decidable (CleanVictim s) :=
  decidable_of_iff ((∀ f : Fin c.NumPhysPages, s.MemBitMap.isSet f = true) ∧
    (s.IPT (clockVictim s)).any (fun rv => !frameDirty s (clockVictim s) rv) = true) (by
      simp [CleanVictim, Option.any_eq_true])

/-- The swap slot that `load` will fill: the first free one, if there is no free frame and the
victim is taken for a dirty page. -/
def takenSlot (s : VM c) : Option (Fin c.SWAPSize) :=
  if (∀ f : Fin c.NumPhysPages, s.MemBitMap.isSet f = true) ∧ ¬ CleanVictim s then
    s.SWAPBitMap.find.1
  else none

/-- What getting the frame `f` does to memory and swap file: a dirty victim is written to its slot;
a clean victim's frame is cleared, but for a blank page only. -/
structure Taken (zero : Bool) (s : VM c) (f : Fin c.NumPhysPages) (s' : VM c) : Prop where
  frame : f = takenFrame s
  cleared : zero = true → CleanVictim s → ∀ o < PageSize, s'.mainMemory (f * PageSize + o) = 0
  kept : ¬ (zero = true ∧ CleanVictim s) → s'.mainMemory = s.mainMemory
  swapFile : s'.swapFile = match takenSlot s with
    | none => s.swapFile
    | some k => s.swapFile.map fun file =>
      file.writeAt s.mainMemory (f * PageSize) PageSize (k * PageSize)

namespace Taken

variable {zero : Bool} {s s' : VM c}

theorem free {f : Fin c.NumPhysPages} {m : BitMap c.NumPhysPages}
    (hf : s.MemBitMap.find = (some f, m)) : Taken zero s f { s with MemBitMap := m } := by
  have hfree := (BitMap.find_some hf).1
  have hnot : ¬ ∀ f : Fin c.NumPhysPages, s.MemBitMap.isSet f = true := fun h => by
    simp [h f] at hfree
  refine ⟨by simp only [takenFrame, hf], fun _ hc => absurd hc.1 hnot, fun _ => rfl, ?_⟩
  rw [takenSlot, if_neg fun h => hnot h.1]

theorem frame_of_full (hfull : ∀ f : Fin c.NumPhysPages, s.MemBitMap.isSet f = true) :
    clockVictim s = takenFrame s := by
  rcases hf : s.MemBitMap.find with ⟨_ | f, m⟩
  · simp only [takenFrame, hf]
  · have := (BitMap.find_some hf).1
    simp [hfull f] at this

theorem clean (hc : CleanVictim s)
    (hmem : ∀ a, s'.mainMemory a = if zero = true ∧ clockVictim s * PageSize ≤ a ∧
      a < clockVictim s * PageSize + PageSize then 0 else s.mainMemory a)
    (hswap : s'.swapFile = s.swapFile) : Taken zero s (clockVictim s) s' := by
  refine ⟨frame_of_full hc.1, fun hz _ o ho => ?_, fun hz => ?_, ?_⟩
  · rw [hmem, if_pos ⟨hz, by omega, by omega⟩]
  · funext a
    rw [hmem, if_neg fun h => hz ⟨h.1, hc⟩]
  · rw [takenSlot, if_neg fun h => h.2 hc]
    exact hswap

theorem dirty (hfull : ∀ f : Fin c.NumPhysPages, s.MemBitMap.isSet f = true)
    (hc : ¬ CleanVictim s) {k : Fin c.SWAPSize} {m : BitMap c.SWAPSize} {file : File}
    (hfind : s.SWAPBitMap.find = (some k, m)) (hfile : s.swapFile = some file)
    (hmem : s'.mainMemory = s.mainMemory)
    (hswap : s'.swapFile = some (file.writeAt s.mainMemory (clockVictim s * PageSize) PageSize
      (k * PageSize))) : Taken zero s (clockVictim s) s' := by
  refine ⟨frame_of_full hfull, fun _ h => absurd h hc, fun _ => hmem, ?_⟩
  simp only [takenSlot, if_pos (And.intro hfull hc), hfind, hfile, Option.map_some]
  exact hswap

end Taken

/-- The result of `load` on page `vpn` of address space `sp`, in any run. -/
inductive Served (sp vpn : ℕ) (s : VM c) : VM c → Prop
  | resident (s' : VM c) (hv : (s.pageTable ⟨sp, vpn⟩).valid = true) (he : Entered sp vpn s s') :
    Served sp vpn s s'
  | fetched (zero : Bool) (f : Fin c.NumPhysPages) (s₁ s₂ s' : VM c)
    (hv : (s.pageTable ⟨sp, vpn⟩).valid = false) (hfiles : s₁.files = s.files)
    (ht : Taken zero s f s₁)
    (hf : Filled vpn (s.spaces sp) (s.pageTable ⟨sp, vpn⟩) f s₁ zero s₂)
    (he : Entered sp vpn (install ⟨sp, vpn⟩ f s₂) s') : Served sp vpn s s'

namespace Shared

variable {s s' : VM c} {hole : Option (Fin c.NumPhysPages)}

theorem dropped (h : Shared hole s) (hd : Dropped s s') : Shared hole s' :=
  { h.toFrameTable.congr hd.spaces hd.MemBitMap hd.IPT hd.entry with
    frame := by
      intro r hr hv
      rw [hd.entry r] at hv ⊢
      rw [hd.MemBitMap]
      exact h.frame r ((hd.hasEntry r).1 hr) hv
    tlb := by
      intro i hi
      obtain ⟨hv, hvp, hpp, hro⟩ := hd.tlb i hi
      obtain ⟨sp, v, hc, hr, hvp', hro', f, hf, hbit⟩ := h.tlb i hv
      exact ⟨sp, v, hd.current.trans hc, (hd.hasEntry _).2 hr, hvp.trans hvp', hro.trans hro', f,
        hpp.trans hf, hd.MemBitMap ▸ hbit⟩
    free := by
      unfold FreeZero
      rw [hd.MemBitMap, hd.mainMemory]
      exact h.free }

/-! ### Getting a frame -/

/-- The clock comes to an end, and its victim is selected. -/
theorem selectVictim (h : Shared none s)
    (hfull : ∀ f : Fin c.NumPhysPages, s.MemBitMap.isSet f = true) :
    ∃ rv s', Nachos.selectVictim s = .ok s' ∧ s.IPT (clockVictim s) = some rv ∧
      s'.indexSWAPFIFO = clockVictim s ∧ Dropped s s' ∧
      (s'.pageTable rv).dirty = frameDirty s (clockVictim s) rv := by
  obtain ⟨rv, s₁, hrv, hr, hdirty, hrv₁, hpp, hbind⟩ := h.selectVictim_eq hfull
  have hbits : BitsOnly s { s₁ with indexSWAPFIFO := clockVictim s } := { hr.toBitsOnly with }
  rw [hbind]
  have hd : ∀ s', updateSwapVictimInfo (clockVictim s)
      { s₁ with indexSWAPFIFO := clockVictim s } = .ok s' →
      (s'.pageTable rv).dirty = frameDirty s (clockVictim s) rv := fun s' hu =>
    (updateSwapVictimInfo_dirty (s := { s₁ with indexSWAPFIFO := clockVictim s }) hrv₁ hpp
      hu).trans (hbits.frameDirty (hdirty rv) _)
  rcases updateSwapVictimInfo_spec (s := { s₁ with indexSWAPFIFO := clockVictim s }) hrv₁ hpp with
    ⟨-, hu⟩ | ⟨i, -, -, hu⟩
  · exact ⟨rv, _, hu, hrv, rfl, hbits.dropped, hd _ hu⟩
  · exact ⟨rv, _, hu, hrv, rfl, hbits.dropped.trans (dropped_setTLB ..), hd _ hu⟩

/-- A bit that is set stays set when a frame changes hands. -/
theorem isSet_retaken {x g : Fin c.NumPhysPages} (hg : s.MemBitMap.isSet g = true) :
    ((s.MemBitMap.clearBit x).setBit x).isSet g = true := by
  simp [hg]

/-- A free frame is marked. -/
theorem mark (h : Shared none s) (f : Fin c.NumPhysPages) :
    Shared (some f) { s with MemBitMap := s.MemBitMap.setBit f } :=
  { h.toFrameTable.mark f with
    frame := by
      intro r hE hv
      obtain ⟨g, hg, hbit⟩ := h.frame r hE hv
      exact ⟨g, hg, by simp [hbit]⟩
    tlb := by
      intro i hi
      obtain ⟨sp, v, hc, hE, hvp, hro, g, hg, hbit⟩ := h.tlb i hi
      exact ⟨sp, v, hc, hE, hvp, hro, g, hg, by simp [hbit]⟩
    free := h.free.of_frame f (by simp) (fun g hg => by simp at hg; exact hg.2) fun _ _ => rfl }

/-- The frame `x` of `rv` becomes the hole, wherever the page goes, and may be written to.  Other
entries may go on designating `x`. -/
theorem takeDown (h : Shared none s) {x : Fin c.NumPhysPages} {rv : PTRef} (hx : s.IPT x = some rv)
    (pp : ℤ) {mem : ℕ → Byte}
    (hmem : ∀ a, a < x * PageSize ∨ x * PageSize + PageSize ≤ a → mem a = s.mainMemory a) :
    Shared (some x)
      { s.modifyEntry rv fun e => { e with valid := false, physicalPage := pp } with
        MemBitMap := (s.MemBitMap.clearBit x).setBit x
        mainMemory := mem } :=
  { h.toFrameTable.takeDown hx pp with
    frame := by
      intro r hE hv
      by_cases hr : r = rv
      · subst hr
        simp at hv
      · simp only [VM.modifyEntry, update_of_ne hr] at hv ⊢
        obtain ⟨f, hf, hbit⟩ := h.frame r hE hv
        exact ⟨f, hf, isSet_retaken hbit⟩
    tlb := by
      intro i hi
      obtain ⟨sp, v, hc, hE, hvp, hro, f, hf, hbit⟩ := h.tlb i hi
      exact ⟨sp, v, hc, hE, hvp, hro, f, hf, isSet_retaken hbit⟩
    free := by
      refine h.free.of_frame x ?_ (fun g hg => ?_) hmem
      · exact (h.toFrameTable.takeDown hx pp).bit_hole x rfl
      · by_contra hbit
        rw [Bool.not_eq_false] at hbit
        rw [isSet_retaken hbit] at hg
        cases hg }

/-- The entry of a page that is not in memory stays invalid, with its swap slot. -/
def Waits (s s' : VM c) : Prop :=
  ∀ r, (s.pageTable r).valid = false → (s'.pageTable r).valid = false ∧
    (s'.pageTable r).physicalPage = (s.pageTable r).physicalPage

/-- **`acquire` gives a frame**, or reports that there is no room in the swap file. -/
theorem acquire (zero : Bool) (h : Shared none s) :
    (∃ f s', Nachos.acquire zero s = .ok (f, s') ∧ Shared (some f) s' ∧ SameSpaces s s' ∧
      Waits s s' ∧ Taken zero s f s') ∨
      Nachos.acquire zero s = .error .swapFull ∨
      Nachos.acquire zero s = .error .swapFileMissing := by
  unfold Nachos.acquire
  rcases hf : s.MemBitMap.find with ⟨_ | f, m⟩
  swap
  · have htaken : Taken zero s f _ := Taken.free hf
    obtain ⟨-, -, rfl⟩ := BitMap.find_some hf
    exact Or.inl ⟨f, _, rfl, h.mark f, ⟨rfl, rfl, rfl, rfl⟩, fun r hr => ⟨hr, rfl⟩, htaken⟩
  have hfull := (BitMap.find_none hf).1
  obtain ⟨rv, s₁, heq, hrv, hfifo, hd, hdirty⟩ := h.selectVictim hfull
  have h₁ := h.dropped hd
  have hIPT : s₁.IPT (clockVictim s) = some rv := by rw [hd.IPT, hrv]
  obtain ⟨-, hval, hpp⟩ := h₁.ipt _ rv (by simp) hIPT
  have hwaits : ∀ pp : ℤ, Waits s (s₁.modifyEntry rv fun e =>
      { e with valid := false, physicalPage := pp }) := by
    intro pp r hr
    have hne : r ≠ rv := by
      rintro rfl
      rw [hd.entry r] at hval
      exact absurd (hr.symm.trans hval) (by simp)
    simp only [VM.modifyEntry, update_of_ne hne]
    rw [hd.entry r]
    exact ⟨hr, rfl⟩
  have hsame : SameSpaces s s₁ := hd.toSameSpaces
  rcases evict_spec zero heq hfifo hIPT hpp (by rw [hd.MemBitMap]; exact hfull) with
    ⟨hclean, he⟩ | ⟨hclean, k, m, file, hfind, hfile, he⟩ | he | he
  · have hcv : CleanVictim s := ⟨hfull, rv, hrv, hdirty.symm.trans hclean⟩
    refine Or.inl ⟨clockVictim s, _, he, { h₁.takeDown hIPT (-1) ?_ with }, { hsame with },
      hwaits (-1), Taken.clean hcv (fun a => by rw [← hd.mainMemory]) hd.swapFile⟩
    exact fun a ha => if_neg (by omega)
  · have hcv : ¬ CleanVictim s := by
      rintro ⟨-, rv', hrv', hno⟩
      rw [hrv] at hrv'
      cases hrv'
      rw [hdirty, hno] at hclean
      cases hclean
    rw [hd.SWAPBitMap] at hfind
    rw [hd.swapFile] at hfile
    exact Or.inl ⟨clockVictim s, _, he, { h₁.takeDown hIPT (k : ℕ) fun _ _ => rfl with },
      { hsame with }, hwaits (k : ℕ), Taken.dirty hfull hcv hfind hfile hd.mainMemory
        (by simp only [hd.mainMemory])⟩
  · exact Or.inr (Or.inl he)
  · exact Or.inr (Or.inr he)

/-! ### `load` -/

theorem install {f : Fin c.NumPhysPages} (h : Shared (some f) s) {r : PTRef} (hE : s.HasEntry r)
    (hr : (s.pageTable r).valid = false) : Shared none (Nachos.install r f s) :=
  { h.toFrameTable.install hE hr with
    frame := by
      intro q hE' hv
      by_cases hq : q = r
      · subst hq
        exact ⟨f, by simp, h.bit_hole f rfl⟩
      · simp only [Nachos.install, VM.modifyEntry, update_of_ne hq] at hv ⊢
        exact h.frame q hE' hv
    tlb := h.tlb
    free := h.free }

/-- Filling the frame set aside. -/
theorem filled {f : Fin c.NumPhysPages} (h : Shared (some f) s) {vpn : ℕ} {space : AddrSpace}
    {e : TranslationEntry} {zero : Bool} (hf : Filled vpn space e f s zero s') :
    Shared (some f) s' := by
  have hfree : FreeZero s' := by
    have hbits := hf.static.2.2.2.2.2.2.2
    refine h.free.of_frame f ?_ (fun g hg => hbits ▸ hg) fun a ha => hf.mainMemory ha
    rw [hbits]
    exact h.bit_hole f rfl
  cases hf
  · exact { h with free := hfree }
  · exact h
  · exact { h with free := hfree }

/-- The TLB clock comes to an end too, and the page gets the entry it selects. -/
theorem updateTLB (h : Shared none s) {sp vpn : ℕ} (hc : s.current = some sp)
    (hE : s.HasEntry ⟨sp, vpn⟩) (hv : (s.pageTable ⟨sp, vpn⟩).valid = true) :
    ∃ s', Nachos.updateTLB sp vpn s = .ok s' ∧ Shared none s' ∧ SameSpaces s s' ∧
      (∃ i, s'.Maps i vpn) ∧ Entered sp vpn s s' := by
  have hrange : ∀ i, (s.tlb i).valid = true → 0 ≤ (s.tlb i).virtualPage ∧
      (s.tlb i).virtualPage < (s.spaces sp).numPages := by
    intro i hi
    obtain ⟨sp', v, hc', hE', hvp, -⟩ := h.tlb i hi
    rw [hc] at hc'
    cases hc'
    have hlt : v < (s.spaces sp).numPages := hE'
    omega
  obtain ⟨x, s₁, heq, hr, hd⟩ := getNextSCTLB_spec hc hrange
  have h₁ := h.dropped hr.toBitsOnly.dropped
  have hE₁ : vpn < (s₁.spaces sp).numPages := (hr.hasEntry ⟨sp, vpn⟩).2 hE
  have hv₁ : (s₁.pageTable ⟨sp, vpn⟩).valid = true := by rw [hr.valid, hv]
  refine ⟨s₁.setTLB x (s₁.pageTable ⟨sp, vpn⟩), ?_, { h₁ with tlb := ?_ },
    ⟨hr.spaces, hr.numSpaces, hr.current, hr.files⟩, ⟨x, ?_⟩, .mk x s₁ hr hd⟩
  · simp only [Nachos.updateTLB, heq, bind, Except.bind, useThisTLBIndex]
    rw [if_pos hE₁]
  · intro i hi
    by_cases hix : i = x
    · subst hix
      simp only [VM.setTLB, update_self]
      exact ⟨sp, vpn, hr.current.trans hc, hE₁, h₁.vpage _ hE₁, h₁.writable _ hE₁,
        h₁.frame _ hE₁ hv₁⟩
    · simp only [VM.setTLB, update_of_ne hix] at hi ⊢
      exact h₁.tlb i hi
  · simp only [VM.Maps, VM.setTLB, update_self]
    exact ⟨hv₁, h₁.vpage _ hE₁⟩

/-- **The page-fault service routine**: afterwards the TLB maps the page, unless an `ASSERT` on the
executable, on the swap file or on a swap slot fires. -/
theorem load (h : Shared none s) {sp vpn : ℕ} (hc : s.current = some sp)
    (hE : s.HasEntry ⟨sp, vpn⟩) :
    (∃ s', Nachos.load sp vpn s = .ok s' ∧ Shared none s' ∧ SameSpaces s s' ∧
      (∃ i, s'.Maps i vpn) ∧ Served sp vpn s s') ∨
      ∃ e, Nachos.load sp vpn s = .error e ∧ LoadFault s ⟨sp, vpn⟩ e := by
  rcases load_branches hE with ⟨hv, hload⟩ | hload | ⟨hv, n, zero, K, hload, hK⟩
  · rw [hload]
    obtain ⟨s', hu, h', hsame, hmaps, he⟩ := h.updateTLB hc hE hv
    exact Or.inl ⟨s', hu, h', hsame, hmaps, .resident s' hv he⟩
  · exact Or.inr ⟨_, hload, Or.inr (Or.inr (Or.inl rfl))⟩
  · rw [hload]
    have hn : Shared none { s with numPageFaults := n } := { h with }
    rcases hn.acquire zero with ⟨f, s₁, heq, h₁, hsame, hwaits, htaken⟩ | heq | heq
    · rw [heq]
      obtain ⟨hv₁, hpp⟩ := hwaits ⟨sp, vpn⟩ hv
      rcases hK f s₁ hsame.files hpp with ⟨s₂, hfill, hk⟩ | hk
      · obtain ⟨hspaces, hnum, hcur, hfiles, -, htable, -, -⟩ := hfill.static
        have h₂ := h₁.filled hfill
        have hE₂ : s₂.HasEntry ⟨sp, vpn⟩ := by
          unfold VM.HasEntry
          rw [hspaces, hsame.spaces]
          exact hE
        have hv₂ : (s₂.pageTable ⟨sp, vpn⟩).valid = false := by
          rw [htable]
          exact hv₁
        have hinst : ((Nachos.install ⟨sp, vpn⟩ f s₂).pageTable ⟨sp, vpn⟩).valid = true := by
          simp
        obtain ⟨s', hu, h', hsame', hmaps, he⟩ := (h₂.install hE₂ hv₂).updateTLB
          (hcur.trans (hsame.current.trans hc)) hE₂ hinst
        have hfilled : SameSpaces s₁ s₂ := ⟨hspaces, hnum, hcur, hfiles⟩
        have hall := (hsame.trans hfilled).trans { hsame' with }
        exact Or.inl ⟨s', hk.trans hu, h', { hall with }, hmaps,
          .fetched zero f s₁ s₂ s' hv hsame.files { htaken with } hfill he⟩
      · exact Or.inr hk
    · rw [heq]
      exact Or.inr ⟨_, rfl, Or.inl rfl⟩
    · rw [heq]
      exact Or.inr ⟨_, rfl, Or.inr (Or.inl rfl)⟩

/-- Serving a TLB miss of the running space. -/
theorem pageFault (h : Shared none s) {sp : ℕ} {addr : BitVec 32} (hc : s.current = some sp)
    (hE : s.HasEntry ⟨sp, pageOf addr⟩) :
    (∃ s', raiseException .pageFaultException addr s = .ok s' ∧ Shared none s' ∧
      SameSpaces s s' ∧ ∃ i, s'.Maps i (pageOf addr)) ∨
      ∃ e, raiseException .pageFaultException addr s = .error e ∧
        LoadFault s ⟨sp, pageOf addr⟩ e := by
  have hbad : Shared none { s with BadVAddrReg := addr } := { h with }
  have hE' : VM.HasEntry { s with BadVAddrReg := addr } ⟨sp, pageOf addr⟩ := hE
  have heq : raiseException .pageFaultException addr s =
      Nachos.load sp (pageOf addr) { s with BadVAddrReg := addr } := by
    simp only [raiseException, exceptionHandler, hc]
  rw [heq]
  rcases hbad.load hc hE' with ⟨s', hl, h', hsame, hmaps, -⟩ | hl
  · exact Or.inl ⟨s', hl, h', { hsame with }, hmaps⟩
  · exact Or.inr hl

/-! ### Steps -/

theorem flush (h : Shared hole s) (fresh : Fin c.TLBSize → TranslationEntry) (current : Option ℕ)
    (x : Fin c.TLBSize) : Shared hole
      { s with indexTLBSndChc := x, tlb := freshTLB fresh, current := current } :=
  { h with tlb := fun i hi => by cases hi }

/-- A hit writes at most in the frame of its entry. -/
theorem hit (h : Shared hole s) {i : Fin c.TLBSize} {f : Fin c.NumPhysPages}
    (hi : (s.tlb i).valid = true) (hf : (s.tlb i).physicalPage = (f : ℕ)) (writing : Bool)
    {mem : ℕ → Byte}
    (hmem : ∀ a, a < f * PageSize ∨ f * PageSize + PageSize ≤ a → mem a = s.mainMemory a) :
    Shared hole { s.touch i writing with mainMemory := mem } :=
  { h with
    free := by
      obtain ⟨-, -, -, -, -, -, g, hg, hbit⟩ := h.tlb i hi
      rw [hg] at hf
      have hgf : (g : ℕ) = f := by exact_mod_cast hf
      exact h.free.of_frame f (hgf ▸ hbit) (fun _ hb => hb) hmem
    tlb := by
      intro j hj
      by_cases hji : j = i
      · subst hji
        simp only [VM.touch, VM.setTLB, update_self] at hj ⊢
        exact h.tlb j hj
      · simp only [VM.touch, VM.setTLB, update_of_ne hji] at hj ⊢
        exact h.tlb j hj }

/-- A new space whose entries name their pages, and frames of memory. -/
theorem addSpace (h : Shared none s) (hu : Unmade s) (space : AddrSpace)
    {table : ℕ → TranslationEntry}
    (htable : ∀ v < space.numPages, (table v).virtualPage = v ∧ (table v).readOnly = false)
    (hframe : ∀ v < space.numPages, (table v).valid = true →
      ∃ f : Fin c.NumPhysPages, (table v).physicalPage = (f : ℕ) ∧
        s.MemBitMap.isSet f = true) :
    Shared none (s.addSpace space table) :=
  { h.toFrameTable.addSpace hu space htable with
    free := h.free
    frame := by
      intro r hE hv
      rcases addSpace_entry space table r hE with ⟨-, hlt, heq⟩ | ⟨-, hE', heq⟩
      · rw [heq] at hv ⊢
        exact hframe r.vpn hlt hv
      · rw [heq] at hv ⊢
        exact h.frame r hE' hv
    tlb := by
      intro i hi
      obtain ⟨sp, v, hc, hE, hvp, hro, f, hf⟩ := h.tlb i hi
      exact ⟨sp, v, hc, (hu.addSpace_old space table hE).1, hvp, hro, f, hf⟩ }

/-- The child of a `Fork` designates the frames of its parent. -/
theorem fork (h : Shared none s) (hu : Unmade s) (p : ℕ) : Shared none (copyAddrSpace p s) := by
  unfold copyAddrSpace
  refine h.addSpace hu (s.spaces p) ?_ ?_
  · intro v hv
    split_ifs with hcopied
    · exact ⟨rfl, h.writable ⟨p, v⟩ hv⟩
    · exact ⟨rfl, rfl⟩
  · intro v hv hvalid
    split_ifs at hvalid ⊢ with hcopied
    · exact h.frame ⟨p, v⟩ hv hvalid
    · cases hvalid

theorem tlbSound (h : Shared hole s) : TLBSound s := by
  intro i hi
  obtain ⟨sp, v, -, -, -, hro, f, hf, -⟩ := h.tlb i hi
  exact ⟨hro, f, hf⟩

/-- An exception after which the program goes on is a page fault in its space. -/
theorem raised (h : Shared none s) {exception : ExceptionType} {addr : BitVec 32}
    (hok : raiseException exception addr s = .ok s') : Shared none s' ∧ SameSpaces s s' := by
  cases exception with
  | pageFaultException =>
    cases hc : s.current with
    | none =>
      simp only [raiseException, exceptionHandler, hc] at hok
      cases hok
    | some sp =>
      by_cases hE : s.HasEntry ⟨sp, pageOf addr⟩
      · rcases h.pageFault hc hE with ⟨s₁, heq, h₁, hsame, -⟩ | ⟨e, heq, -⟩
        · rw [heq] at hok
          cases hok
          exact ⟨h₁, hsame⟩
        · rw [heq] at hok
          cases hok
      · -- `load` outside the table
        have hle : (s.spaces sp).numPages ≤ pageOf addr := Nat.not_lt.1 hE
        simp only [raiseException, exceptionHandler, hc, Nachos.load, if_pos hle] at hok
        cases hok
  | _ => simp only [raiseException, exceptionHandler, reduceCtorEq] at hok

theorem accessMem (h : Shared none s) {w : Option (BitVec 32)} {addr : BitVec 32} {size : ℕ}
    {o : Option (BitVec 32)} (hok : Nachos.accessMem w addr size s = .ok (o, s')) :
    Shared none s' ∧ SameSpaces s s' := by
  have hexc : ∀ exception, translate addr size w.isSome s = .ok (.error exception, s) →
      Shared none s' ∧ SameSpaces s s' := by
    intro exception ht
    rw [accessMem_exception ht] at hok
    obtain ⟨s₁, hr, hs₁⟩ := map_eq_ok.1 hok
    cases hs₁
    exact h.raised hr
  rcases h.tlbSound.translate_cases addr size w.isSome with
    ⟨ht, -⟩ | ⟨ht, -⟩ | ⟨i, f, hal, hm, hpp, ht | ⟨ht, -⟩⟩
  · exact hexc _ ht
  · exact hexc _ ht
  · rw [accessMem_hit ht] at hok
    rcases accessBytes_cases w s.mainMemory (f * PageSize + offsetOf addr) size with
      ⟨value, hval, hsize, -⟩ | ⟨hval, -⟩
    · rw [hval] at hok
      cases hok
      have hfit := offsetOf_add_le hal hsize
      refine ⟨h.hit hm.1 hpp w.isSome fun a ha => ?_, ⟨rfl, rfl, rfl, rfl⟩⟩
      cases w with
      | none => rfl
      | some value => exact if_neg (by omega)
    · rw [hval] at hok
      cases hok
  · simp [Nachos.accessMem, ht, bind, Except.bind] at hok

end Shared

/-- What one step keeps. -/
theorem shared_step {s s' : VM c} {a : Option (Action c)} (h : Shared none s) (hu : Unmade s)
    (hst : AnyStep s a s') : Shared none s' ∧ Unmade s' := by
  have hkeep : Shared none s' ∧ SameSpaces s s' → Shared none s' ∧ Unmade s' := by
    rintro ⟨h', hsame⟩
    exact ⟨h', hu.congr hsame.spaces hsame.numSpaces⟩
  cases a with
  | none =>
    obtain ⟨p, -, rfl⟩ := hst
    exact ⟨h.fork hu p, hu.addSpace _ _⟩
  | some a =>
    cases Step.stepped hst with
    | create fn executable hf hm =>
      refine ⟨h.addSpace hu _ (fun v _ => ⟨rfl, rfl⟩) ?_, hu.addSpace _ _⟩
      intro v _ hvalid
      cases hvalid
    | access a addr size w o s' _ hr => exact hkeep (h.accessMem hr)
    | switchOut sp fresh hc =>
      have hb := saveStateLoop_bitsOnly sp (List.finRange c.TLBSize) s
      exact ⟨(h.dropped hb.dropped).flush fresh none _, hu.congr hb.spaces hb.numSpaces⟩
    | switchIn sp fresh hc => exact ⟨h.flush fresh _ _, hu⟩

theorem AnyReachable.shared {s : VM c} (h : AnyReachable s) : Shared none s ∧ Unmade s := by
  refine Reach.invariant (I := fun s => Shared none s ∧ Unmade s) ?_ ?_ h
  · rintro s ⟨files, swapFile, words, words', fresh, rfl⟩
    exact ⟨shared_boot .., fun _ _ => rfl⟩
  · rintro s a t ⟨hS, hu⟩ hst
    exact shared_step hS hu hst

/-! ### Accesses -/

namespace Shared

variable {s : VM c} {sp size : ℕ} {addr : BitVec 32}

/-- `SafeReadMem` and `SafeWriteMem` make at most two turns: in the second the TLB maps the page. -/
theorem safeAccess (h : Shared none s) (hc : s.current = some sp)
    (hE : s.HasEntry ⟨sp, pageOf addr⟩) (hal : Aligned addr size) (w : Option (BitVec 32)) :
    (∃ value s', ∀ n, Nachos.safeAccess w addr size (n + 2) s = .ok (value, s')) ∨
      ∃ e, (∀ n, Nachos.safeAccess w addr size (n + 2) s = .error e) ∧
        LoadFault s ⟨sp, pageOf addr⟩ e := by
  by_cases hm : ∃ i, s.Maps i (pageOf addr)
  · obtain ⟨value, s', heq⟩ := h.tlbSound.accessMem_mapped (w := w) hal hm
    exact Or.inl ⟨value, s', fun n => safeAccess_some heq (n + 1)⟩
  · have heq := h.tlbSound.accessMem_unmapped (w := w) hal hm
    rcases h.pageFault hc hE with ⟨s₁, hr, h₁, -, hm₁⟩ | ⟨e, hr, he⟩
    · rw [hr] at heq
      obtain ⟨value, s', heq'⟩ := h₁.tlbSound.accessMem_mapped (w := w) hal hm₁
      refine Or.inl ⟨value, s', fun n => ?_⟩
      rw [safeAccess_none heq]
      exact safeAccess_some heq' n
    · rw [hr] at heq
      exact Or.inr ⟨e, fun n => safeAccess_error heq (n + 1), he⟩

end Shared

/-- **A handled page fault lets the access succeed.**  `load` of a page of the running space ends,
with an `ASSERT` (`LoadFault`) or with a TLB entry for the page that names a frame of memory.  Then
an aligned access to the page is translated, and `SafeReadMem` and `SafeWriteMem` of an aligned
address in the space need no more than two turns. -/
theorem fault_served {s : VM c} (h : AnyReachable s) {sp : ℕ} (hc : s.current = some sp) :
    (∀ vpn < (s.spaces sp).numPages,
      (∃ e, load sp vpn s = .error e ∧ LoadFault s ⟨sp, vpn⟩ e) ∨
      ∃ s', load sp vpn s = .ok s' ∧
        (∃ i, s'.Maps i vpn ∧ 0 ≤ (s'.tlb i).physicalPage ∧
          (s'.tlb i).physicalPage < c.NumPhysPages) ∧
        ∀ addr size writing, pageOf addr = vpn → Aligned addr size →
          ∃ physAddr s'', translate addr size writing s' = .ok (.ok physAddr, s'')) ∧
    ∀ addr size, addr.toNat < (s.spaces sp).numPages * PageSize → Aligned addr size →
      ((∃ value s', ∀ n, safeReadMem addr size (n + 2) s = .ok (value, s')) ∨
        ∃ e, (∀ n, safeReadMem addr size (n + 2) s = .error e) ∧
          LoadFault s ⟨sp, pageOf addr⟩ e) ∧
      ∀ value, (∃ s', ∀ n, safeWriteMem addr size value (n + 2) s = .ok s') ∨
        ∃ e, (∀ n, safeWriteMem addr size value (n + 2) s = .error e) ∧
          LoadFault s ⟨sp, pageOf addr⟩ e := by
  obtain ⟨hS, -⟩ := h.shared
  constructor
  · intro vpn hvpn
    rcases hS.load hc hvpn with ⟨s', heq, hS', -, ⟨i, hi⟩, -⟩ | hfault
    · refine Or.inr ⟨s', heq, ⟨i, hi, ?_⟩, ?_⟩
      · obtain ⟨-, -, -, -, -, -, f, hf, -⟩ := hS'.tlb i hi.1
        have hlt := f.isLt
        omega
      · rintro addr size writing rfl hal
        obtain ⟨j, f, ht⟩ := hS'.tlbSound.translate_mapped hal writing ⟨i, hi⟩
        exact ⟨_, _, ht⟩
    · exact Or.inl hfault
  · intro addr size hlt hal
    have hE : s.HasEntry ⟨sp, pageOf addr⟩ := pageOf_lt hlt
    refine ⟨by simpa only [safeReadMem_eq] using hS.safeAccess hc hE hal none, fun value => ?_⟩
    rcases hS.safeAccess hc hE hal (some value) with ⟨_, s', heq⟩ | ⟨e, heq, he⟩
    · exact Or.inl ⟨s', fun n => by rw [safeWriteMem_eq, heq]; rfl⟩
    · exact Or.inr ⟨e, fun n => by rw [safeWriteMem_eq, heq]; rfl, he⟩

theorem smallFork_reachable : AnyReachable (copyAddrSpace 0 smallStart) :=
  .step none (.step (some _) (.step (some _) (.init smallBoot_booted) smallBoot_create)
    smallStart_switchIn) ⟨0, rfl, rfl⟩

/-- The first instruction fetch of a program that has just forked. -/
theorem fault_served_smallFork : ∃ value s', ∀ n,
    safeReadMem 0 4 (n + 2) (copyAddrSpace 0 smallStart) = .ok (value, s') := by
  obtain ⟨p, hok, -⟩ := exists_ok (safeReadMem 0 4 2 (copyAddrSpace 0 smallStart))
    (fun _ => True) (by decide +kernel)
  rcases ((fault_served smallFork_reachable rfl).2 0 4 (by decide +kernel)
    ⟨by decide, by decide⟩).1 with hread | ⟨e, he, -⟩
  · exact hread
  · rw [he 0] at hok
    cases hok

/-! ### Addresses outside the space -/

/-- Reading and writing at `addr` never accesses an array outside its bounds. -/
def WildRejected (addr : BitVec 32) (size : ℕ) (s : VM c) : Prop :=
  readMem addr size s ≠ .error .wildAccess ∧
    ∀ value, writeMem addr size value s ≠ .error .wildAccess

theorem wildRejected_iff {addr : BitVec 32} {size : ℕ} {s : VM c} :
    WildRejected addr size s ↔ ∀ w, accessMem w addr size s ≠ .error .wildAccess := by
  simp only [WildRejected, readMem_eq, writeMem_eq, ne_eq, map_eq_error]
  refine ⟨fun h w => ?_, fun h => ⟨h none, fun value => h (some value)⟩⟩
  cases w with
  | none => exact h.1
  | some value => exact h.2 value

theorem wildRejected_misaligned {addr : BitVec 32} {size : ℕ} (hmis : Misaligned addr size)
    (s : VM c) : WildRejected addr size s := by
  refine wildRejected_iff.2 fun w => ?_
  have ht : translate addr size w.isSome s = .ok (.error .addressErrorException, s) := by
    rw [translate, if_pos hmis]
  rw [accessMem_exception ht]
  simp [raiseException, exceptionHandler, Except.map]

theorem LoadFault.ne_wildAccess {s : VM c} {r : PTRef} {e : Fault} (h : LoadFault s r e) :
    e ≠ .wildAccess := by
  rcases h with rfl | rfl | rfl | ⟨rfl, -⟩ <;> simp

namespace Shared

variable {s : VM c} {sp size : ℕ} {addr : BitVec 32}

theorem wildRejected_inside (h : Shared none s) (hc : s.current = some sp)
    (hE : s.HasEntry ⟨sp, pageOf addr⟩) (hal : Aligned addr size) : WildRejected addr size s := by
  refine wildRejected_iff.2 fun w => ?_
  by_cases hm : ∃ i, s.Maps i (pageOf addr)
  · obtain ⟨value, s', heq⟩ := h.tlbSound.accessMem_mapped (w := w) hal hm
    rw [heq]
    simp
  · rw [h.tlbSound.accessMem_unmapped hal hm, ne_eq, map_eq_error]
    rcases h.pageFault hc hE with ⟨s', hr, -⟩ | ⟨e, hr, he⟩
    · rw [hr]
      simp
    · rw [hr]
      simpa using he.ne_wildAccess

/-- Beyond the table there is no TLB entry, and `load` reads the entry that is not there. -/
theorem readMem_outside (h : Shared none s) (hc : s.current = some sp)
    (hE : ¬ s.HasEntry ⟨sp, pageOf addr⟩) (hal : Aligned addr size) :
    Nachos.readMem addr size s = .error .wildAccess := by
  have hno : ¬ ∃ i, s.Maps i (pageOf addr) := by
    rintro ⟨i, hvalid, hvpn⟩
    obtain ⟨sp', v, hc', hE', hvp, -⟩ := h.tlb i hvalid
    rw [hc] at hc'
    cases hc'
    have hv : v = pageOf addr := by omega
    exact hE (hv ▸ hE')
  have hle : (s.spaces sp).numPages ≤ pageOf addr := Nat.not_lt.1 hE
  rw [readMem_eq, h.tlbSound.accessMem_unmapped hal hno]
  simp only [raiseException, exceptionHandler, hc, Nachos.load, if_pos hle, Except.map]

end Shared

/-- **A wild address is rejected before the page table is touched exactly when it is not wild**, or
when it is misaligned. -/
theorem wild_rejected_iff {s : VM c} (h : AnyReachable s) {sp : ℕ} (hc : s.current = some sp)
    (addr : BitVec 32) {size : ℕ} (hsize : size = 1 ∨ size = 2 ∨ size = 4) :
    WildRejected addr size s ↔
      Misaligned addr size ∨ addr.toNat < (s.spaces sp).numPages * PageSize := by
  obtain ⟨hS, -⟩ := h.shared
  have hE : s.HasEntry ⟨sp, pageOf addr⟩ ↔ addr.toNat < (s.spaces sp).numPages * PageSize := by
    unfold VM.HasEntry pageOf
    exact Nat.div_lt_iff_lt_mul (by decide)
  rw [← hE]
  by_cases hmis : Misaligned addr size
  · exact iff_of_true (wildRejected_misaligned hmis s) (Or.inl hmis)
  · rw [or_iff_right hmis]
    constructor
    · intro hrej
      by_contra hout
      exact hrej.1 (hS.readMem_outside hc hout ⟨hsize, hmis⟩)
    · exact fun hin => hS.wildRejected_inside hc hin ⟨hsize, hmis⟩

theorem wild_rejected_smallFork : WildRejected 0 4 (copyAddrSpace 0 smallStart) :=
  (wild_rejected_iff smallFork_reachable rfl 0 (by decide)).2 (Or.inr (by decide +kernel))

/-- `load` as the source has it, when `pageTable ⟨sp, vpn⟩` is whatever lies at `pageTable[vpn]`. -/
def loadAnyway (sp vpn : ℕ) (s : VM c) : Except Fault (VM c) :=
  let space := s.spaces sp
  let e := s.pageTable ⟨sp, vpn⟩
  if !e.valid && !e.dirty then
    let s := { s with numPageFaults := s.numPageFaults + 1 }
    match s.files space.filename with
    | none => .error .sourceFileMissing
    | some executable =>
      if vpn < space.initData then loadCode sp vpn executable s
      else if vpn < space.noInitData then loadInitData sp vpn executable s
      else if vpn < space.numPages then loadNoInitData sp vpn s
      else .error .invalidPageNumber
  else if !e.valid && e.dirty then loadSwapped sp vpn s
  else updateTLB sp vpn s

theorem load_eq_loadAnyway (sp vpn : ℕ) (s : VM c) : load sp vpn s =
    if (s.spaces sp).numPages ≤ vpn then .error .wildAccess else loadAnyway sp vpn s := rfl

/-- `loadSwapped` up to the TLB. -/
def swapIn (sp vpn : ℕ) (s : VM c) : Except Fault (VM c) :=
  acquire false s >>= fun p =>
    readFromSwap p.1 (p.2.pageTable ⟨sp, vpn⟩).physicalPage p.2 >>= fun s =>
      .ok (install ⟨sp, vpn⟩ p.1 s)

theorem loadSwapped_eq_swapIn (sp vpn : ℕ) (s : VM c) :
    loadSwapped sp vpn s = swapIn sp vpn s >>= updateTLB sp vpn := by
  rw [loadSwapped_eq, swapIn]
  cases acquire false s with
  | error e => rfl
  | ok p =>
    change (readFromSwap _ _ _ >>= _) = (readFromSwap _ _ _ >>= _) >>= _
    cases readFromSwap p.1 (p.2.pageTable ⟨sp, vpn⟩).physicalPage p.2 <;> rfl

/-- What lies beyond the table of `smallStart` looks like the entry of a page in slot 0 of the swap
file. -/
def smallStray : VM machineH :=
  smallStart.modifyEntry ⟨0, 17⟩ fun _ => ⟨0, 0, false, false, false, true⟩

/-- A read at -4 goes outside the page table.  And page 17 of a space of 9 pages is taken for one in
the swap file: it gets a frame, the `IPT` points outside the table, what lies there is overwritten,
and only then an `ASSERT` fires. -/
theorem wild_address_touched :
    readMem (-4) 4 smallStart = .error .wildAccess ∧ ¬ WildRejected (-4) 4 smallStart ∧
    (smallStray.spaces 0).numPages = 9 ∧
    ∃ s', swapIn 0 17 smallStray = .ok s' ∧ s'.IPT ⟨0, by decide⟩ = some ⟨0, 17⟩ ∧
      s'.MemBitMap.isSet 0 = true ∧ (s'.pageTable ⟨0, 17⟩).valid = true ∧
      loadAnyway 0 17 smallStray = updateTLB 0 17 s' ∧
      updateTLB 0 17 s' = .error .invalidParams := by
  have hread : readMem (-4) 4 smallStart = .error .wildAccess := rfl
  refine ⟨hread, fun h => h.1 hread, by decide +kernel, ?_⟩
  cases hs : swapIn 0 17 smallStray with
  | error e => cases hs
  | ok s' =>
    have hload : loadAnyway 0 17 smallStray = updateTLB 0 17 s' := by
      change loadSwapped 0 17 smallStray = _
      rw [loadSwapped_eq_swapIn, hs]
      rfl
    cases hs
    exact ⟨_, rfl, rfl, rfl, rfl, hload, rfl⟩

end Nachos
