import Nachos.VM.Frames

/-!
# What `load` can do

`load_spec` is the one description of `load` that every later invariant uses.  When the frame
ownership invariant holds and the TLB does not map the page, `load` either reports one of four
conditions (no room in the swap file, no swap file, no executable, a swap slot out of range), or
it returns with the ownership invariant again and a `Loaded` state:

* the page was in memory and only gets a TLB entry (`Entered`), or
* a frame was `Acquired`, `Filled` from where the page was, and the page `install`ed in it.
-/

namespace Nachos

variable {c : Sizes} {A : Alias}

/-- Page `vpn` got a TLB entry; the dirty bit of the entry given away is in the page table. -/
inductive Entered (sp vpn : ℕ) (s : VM c) : VM c → Prop
  | mk (x : Fin c.TLBSize) (s₁ : VM c) (hr : Refresh s s₁)
    (hd : (s.tlb x).valid = false ∨
      (s₁.pageTable ⟨sp, (s.tlb x).virtualPage.toNat⟩).dirty = (s.tlb x).dirty) :
    Entered sp vpn s (s₁.setTLB x (s₁.pageTable ⟨sp, vpn⟩))

/-- How the frame `f` gets the contents of a page whose entry is `e`: from the executable, not at
all, or from its swap slot. -/
inductive Filled (vpn : ℕ) (space : AddrSpace) (e : TranslationEntry) (f : Fin c.NumPhysPages)
    (s : VM c) : Bool → VM c → Prop
  | file (executable : File) (hd : e.dirty = false) (hf : s.files space.filename = some executable)
    (hv : vpn < space.noInitData ∨ vpn < space.initData) :
    Filled vpn space e f s false (readExecutable executable f vpn s)
  | blank (hd : e.dirty = false) (hv : space.initData ≤ vpn ∧ space.noInitData ≤ vpn) :
    Filled vpn space e f s true s
  | swap (k : Fin c.SWAPSize) (file : File) (hd : e.dirty = true) (hk : e.physicalPage = (k : ℕ))
    (hf : s.swapFile = some file) :
    Filled vpn space e f s false { s with
      SWAPBitMap := s.SWAPBitMap.clearBit k
      mainMemory := file.readAt s.mainMemory (f * PageSize) PageSize (k * PageSize)
      numPageFaults := s.numPageFaults + 1 }

/-- The result of `load` on page `vpn` of address space `sp`. -/
inductive Loaded (sp vpn : ℕ) (s : VM c) : VM c → Prop
  | resident (s' : VM c) (hv : (s.pageTable ⟨sp, vpn⟩).valid = true) (he : Entered sp vpn s s') :
    Loaded sp vpn s s'
  | fetched (n : ℕ) (zero : Bool) (f : Fin c.NumPhysPages) (s₁ s₂ s' : VM c)
    (hv : (s.pageTable ⟨sp, vpn⟩).valid = false)
    (ha : Acquired zero { s with numPageFaults := n } f s₁)
    (hf : Filled vpn (s.spaces sp) (s.pageTable ⟨sp, vpn⟩) f s₁ zero s₂)
    (he : Entered sp vpn (install ⟨sp, vpn⟩ f s₂) s') : Loaded sp vpn s s'

/-- The conditions under which `load` gives up on the page at `r`. -/
def LoadFault (s : VM c) (r : PTRef) (e : Fault) : Prop :=
  e = .swapFull ∨ e = .swapFileMissing ∨ e = .sourceFileMissing ∨
    e = .bitMapRange ∧ (s.pageTable r).valid = false ∧ (s.pageTable r).dirty = true ∧
      ¬ (0 ≤ (s.pageTable r).physicalPage ∧ (s.pageTable r).physicalPage < c.SWAPSize)

/-! ### The fields that the stages leave alone -/

variable {x : Fin c.NumPhysPages} {space : AddrSpace} {e : TranslationEntry}

theorem Evicted.ipt {zero : Bool} {s s' : VM c} {rv : PTRef} (h : Evicted zero s x rv s') :
    s.IPT x = some rv := by
  cases h with
  | clean _ h _ => exact h.ipt
  | dirty _ _ _ _ h _ _ _ => exact h.ipt

/-- Taking a frame away changes the entry of its page, and elsewhere only use bits. -/
theorem Evicted.entry {zero : Bool} {s s' : VM c} {rv r : PTRef} (h : Evicted zero s x rv s')
    (hr : r ≠ rv) : s'.pageTable r = { s.pageTable r with use := (s'.pageTable r).use } := by
  have key : ∀ s₁ : VM c, Selected s x rv s₁ →
      s₁.pageTable r = { s.pageTable r with use := (s₁.pageTable r).use } := by
    intro s₁ hsel
    have := hsel.entry r
    rwa [hsel.other r hr] at this
  cases h with
  | clean s₁ hsel hd | dirty s₁ k m file hsel hd hk hfile =>
    simp only [VM.modifyEntry, Function.update_of_ne hr]
    exact key s₁ hsel

/-- What becomes of the page that loses its frame: a clean page is nowhere, a dirty page is in a
slot that was free. -/
theorem Evicted.victim {zero : Bool} {s s' : VM c} {rv : PTRef} (h : Evicted zero s x rv s') :
    (s'.pageTable rv).valid = false ∧
    ((s'.pageTable rv).dirty = false ∧ (s'.pageTable rv).physicalPage = -1 ∧
        s'.SWAPBitMap = s.SWAPBitMap ∧ s'.swapFile = s.swapFile ∨
      ∃ (k : Fin c.SWAPSize) (file : File), (s'.pageTable rv).dirty = true ∧
        (s'.pageTable rv).physicalPage = (k : ℕ) ∧ s.SWAPBitMap.isSet k = false ∧
        s'.SWAPBitMap = s.SWAPBitMap.setBit k ∧ s.swapFile = some file ∧
        s'.swapFile = some (file.writeAt s.mainMemory (x * PageSize) PageSize (k * PageSize)) ∧
        s'.mainMemory = s.mainMemory) := by
  cases h with
  | clean s₁ hsel hd =>
    refine ⟨by simp, Or.inl ⟨?_, ?_, hsel.SWAPBitMap, hsel.swapFile⟩⟩
    · simpa using hd
    · simp
  | dirty s₁ k m file hsel hd hk hfile =>
    obtain ⟨hclear, -, rfl⟩ := BitMap.find_some hk
    refine ⟨by simp, Or.inr ⟨k, file, ?_, ?_, ?_, ?_, ?_, ?_, hsel.mainMemory⟩⟩
    · simpa using hd
    · simp
    · rwa [← hsel.SWAPBitMap]
    · rw [hsel.SWAPBitMap]
    · rwa [← hsel.swapFile]
    · rw [hsel.mainMemory]

/-- Getting a frame leaves the entry of an invalid page alone, up to its use bit. -/
theorem Acquired.entry {zero : Bool} {s s' : VM c} {f : Fin c.NumPhysPages}
    (h : Acquired zero s f s') (hF : FramesUpTo A none s) {r : PTRef}
    (hr : (s.pageTable r).valid = false) :
    s'.pageTable r = { s.pageTable r with use := (s'.pageTable r).use } := by
  cases h with
  | free f m hfind => rfl
  | evicted rv s' hfull hev =>
    refine hev.entry ?_
    rintro rfl
    have := (hF.ipt _ _ (by simp) hev.ipt).2.1
    simp [hr] at this

section Acquired

variable {zero : Bool} {s s' : VM c} {f : Fin c.NumPhysPages} (h : Acquired zero s f s')
include h

theorem Acquired.static : s'.spaces = s.spaces ∧ s'.numSpaces = s.numSpaces ∧
    s'.current = s.current ∧ s'.files = s.files ∧ s'.IPT = s.IPT := by
  cases h with
  | free f m hfind => exact ⟨rfl, rfl, rfl, rfl, rfl⟩
  | evicted rv s' hfull hev =>
    cases hev with
    | clean s₁ h _ | dirty s₁ k m file h _ _ _ =>
      exact ⟨h.spaces, h.numSpaces, h.current, h.files, h.IPT⟩

/-- Getting a frame adds nothing to the TLB. -/
theorem Acquired.maps (i : Fin c.TLBSize) (v : ℕ) (hm : s'.Maps i v) : s.Maps i v := by
  cases h with
  | free f m hfind => exact hm
  | evicted rv s' hfull hev =>
    cases hev with
    | clean s₁ h _ => exact ((h.maps i v).1 hm).1
    | dirty s₁ k m file h _ _ _ => exact ((h.maps i v).1 hm).1

end Acquired

theorem Filled.static {vpn : ℕ} {f : Fin c.NumPhysPages} {s s' : VM c} {zero : Bool}
    (h : Filled vpn space e f s zero s') :
    s'.spaces = s.spaces ∧ s'.numSpaces = s.numSpaces ∧ s'.current = s.current ∧
      s'.files = s.files ∧ s'.IPT = s.IPT ∧ s'.pageTable = s.pageTable ∧ s'.tlb = s.tlb ∧
      s'.MemBitMap = s.MemBitMap := by
  cases h <;> exact ⟨rfl, rfl, rfl, rfl, rfl, rfl, rfl, rfl⟩

theorem Filled.frames {vpn : ℕ} {f : Fin c.NumPhysPages} {s s' : VM c} {zero : Bool}
    (h : Filled vpn space e f s zero s') {hole : Option (Fin c.NumPhysPages)}
    (hF : FramesUpTo A hole s) : FramesUpTo A hole s' := by
  cases h <;> exact { hF with }

/-- Memory changes at most in the frame that is filled. -/
theorem Filled.mainMemory {vpn : ℕ} {f : Fin c.NumPhysPages} {s s' : VM c} {zero : Bool}
    (h : Filled vpn space e f s zero s') {a : ℕ}
    (ha : a < f * PageSize ∨ f * PageSize + PageSize ≤ a) : s'.mainMemory a = s.mainMemory a := by
  cases h with
  | file executable hd hf hv => exact File.readAt_outside _ _ ha
  | blank hd hv => rfl
  | swap k file hd hk hf => exact File.readAt_outside _ _ ha

/-- The TLB stage does not touch memory or frame numbers. -/
theorem Entered.same {sp vpn : ℕ} {s s' : VM c} (h : Entered sp vpn s s') :
    s'.mainMemory = s.mainMemory ∧ ∀ r, (s'.pageTable r).valid = (s.pageTable r).valid ∧
      (s'.pageTable r).physicalPage = (s.pageTable r).physicalPage := by
  cases h with
  | mk x s₁ hr hd => exact ⟨hr.mainMemory, fun r => ⟨hr.valid r, hr.physicalPage r⟩⟩

/-- The tables are in order again once the page is installed. -/
theorem Filled.install_frames {sp vpn n : ℕ} {f : Fin c.NumPhysPages} {s s₁ s₂ : VM c} {zero : Bool}
    (h : Filled vpn space e f s₁ zero s₂) (ha : Acquired zero { s with numPageFaults := n } f s₁)
    (hF : FramesUpTo A none s) (hsolo : SoloVictim A s ⟨sp, vpn⟩) (hE : s.HasEntry ⟨sp, vpn⟩)
    (hv : (s.pageTable ⟨sp, vpn⟩).valid = false) : FramesUpTo A none (install ⟨sp, vpn⟩ f s₂) := by
  have hn : FramesUpTo A none { s with numPageFaults := n } := { hF with }
  refine (h.frames (ha.framesUpTo hn (hsolo hv))).install ?_ ?_
  · simpa only [VM.HasEntry, h.static.1, ha.static.1] using hE
  · rw [h.static.2.2.2.2.2.1, ha.entry hn hv]
    exact hv

/-! ### The description of `load` -/

/-- The second half of `load`: the frame is there and filled. -/
theorem updateTLB_install {s : VM c} {sp vpn : ℕ} {f : Fin c.NumPhysPages}
    (hF : FramesUpTo A (some f) s) (hc : s.current = some sp) (hE : s.HasEntry ⟨sp, vpn⟩)
    (hv : (s.pageTable ⟨sp, vpn⟩).valid = false) (hno : ∀ i, ¬ s.Maps i vpn) :
    ∃ s', updateTLB sp vpn (install ⟨sp, vpn⟩ f s) = .ok s' ∧
      Entered sp vpn (install ⟨sp, vpn⟩ f s) s' ∧ FramesUpTo A none s' := by
  have hval : ((install ⟨sp, vpn⟩ f s).pageTable ⟨sp, vpn⟩).valid = true := by
    simp
  obtain ⟨x, s₁, heq, hr, hd, hF'⟩ := updateTLB_spec (hF.install hE hv) hc hE hval hno
  exact ⟨_, heq, .mk x s₁ hr hd, hF'⟩

section LoadSpec

variable {s : VM c} {sp vpn : ℕ}

/-- The second half of `load`, from the state in which the frame was asked for. -/
theorem updateTLB_filled (h : FramesUpTo A none s) (hsolo : SoloVictim A s ⟨sp, vpn⟩)
    (hc : s.current = some sp) (hE : s.HasEntry ⟨sp, vpn⟩) (hno : ∀ i, ¬ s.Maps i vpn)
    (hv : (s.pageTable ⟨sp, vpn⟩).valid = false) {n : ℕ} {zero : Bool} {f : Fin c.NumPhysPages}
    {s₁ s₂ : VM c} (ha : Acquired zero { s with numPageFaults := n } f s₁)
    (hfill : Filled vpn space e f s₁ zero s₂) :
    ∃ s', updateTLB sp vpn (install ⟨sp, vpn⟩ f s₂) = .ok s' ∧
      Entered sp vpn (install ⟨sp, vpn⟩ f s₂) s' ∧ FramesUpTo A none s' := by
  have hn : FramesUpTo A none { s with numPageFaults := n } := { h with }
  have hs := ha.static
  have hs₂ := hfill.static
  have hF₂ : FramesUpTo A (some f) s₂ := hfill.frames (ha.framesUpTo hn (hsolo hv))
  have hv₂ : (s₂.pageTable ⟨sp, vpn⟩).valid = false := by
    rw [hs₂.2.2.2.2.2.1, ha.entry hn hv]
    exact hv
  have hE₂ : s₂.HasEntry ⟨sp, vpn⟩ := by
    simpa only [VM.HasEntry, hs₂.1, hs.1] using hE
  have hno₂ : ∀ i, ¬ s₂.Maps i vpn := by
    intro i hm
    refine hno i (ha.maps i vpn ?_)
    simpa only [VM.Maps, hs₂.2.2.2.2.2.2.1] using hm
  exact updateTLB_install hF₂ (hs₂.2.2.1.trans (hs.2.2.1.trans hc)) hE₂ hv₂ hno₂

/-- What comes of `load`. -/
def LoadResult (A : Alias) (sp vpn : ℕ) (s : VM c) (m : Except Fault (VM c)) : Prop :=
  (∃ s', m = .ok s' ∧ Loaded sp vpn s s' ∧ FramesUpTo A none s') ∨
    ∃ e, m = .error e ∧ LoadFault s ⟨sp, vpn⟩ e

/-- What the branches for a page that is not in memory have in common: a frame, its contents, the
tables, the TLB. -/
theorem acquire_then (h : FramesUpTo A none s) (hsolo : SoloVictim A s ⟨sp, vpn⟩)
    (hc : s.current = some sp) (hE : s.HasEntry ⟨sp, vpn⟩) (hno : ∀ i, ¬ s.Maps i vpn)
    (hv : (s.pageTable ⟨sp, vpn⟩).valid = false) (n : ℕ) (zero : Bool)
    (K : Fin c.NumPhysPages × VM c → Except Fault (VM c))
    (hK : ∀ f s₁, Acquired zero { s with numPageFaults := n } f s₁ →
      (∃ s₂, Filled vpn (s.spaces sp) (s.pageTable ⟨sp, vpn⟩) f s₁ zero s₂ ∧
        K (f, s₁) = updateTLB sp vpn (install ⟨sp, vpn⟩ f s₂)) ∨
      ∃ e, K (f, s₁) = .error e ∧ LoadFault s ⟨sp, vpn⟩ e) :
    LoadResult A sp vpn s (acquire zero { s with numPageFaults := n } >>= K) := by
  have hn : FramesUpTo A none { s with numPageFaults := n } := { h with }
  rcases acquire_spec zero hn with ⟨f, s₁, heq, ha⟩ | heq | heq
  · rw [heq]
    rcases hK f s₁ ha with ⟨s₂, hfill, hk⟩ | hk
    · obtain ⟨s', hu, hent, hF'⟩ := updateTLB_filled h hsolo hc hE hno hv ha hfill
      exact Or.inl ⟨s', hk.trans hu, .fetched n zero f s₁ s₂ s' hv ha hfill hent, hF'⟩
    · exact Or.inr hk
  · rw [heq]
    exact Or.inr ⟨_, rfl, Or.inl rfl⟩
  · rw [heq]
    exact Or.inr ⟨_, rfl, Or.inr (Or.inl rfl)⟩

/-- `readFromSwap` fills the frame from the slot of the page, unless there is no swap file or no
such slot. -/
theorem readFromSwap_spec (f : Fin c.NumPhysPages) (s : VM c) (vpn : ℕ) (space : AddrSpace)
    (hd : e.dirty = true) :
    (∃ s', readFromSwap f e.physicalPage s = .ok s' ∧ Filled vpn space e f s false s') ∨
      readFromSwap f e.physicalPage s = .error .swapFileMissing ∨
      (readFromSwap f e.physicalPage s = .error .bitMapRange ∧
        ¬ (0 ≤ e.physicalPage ∧ e.physicalPage < c.SWAPSize)) := by
  cases hclear : s.SWAPBitMap.clear e.physicalPage with
  | error x =>
    obtain ⟨rfl, hrange⟩ := BitMap.clear_error hclear
    refine Or.inr (Or.inr ⟨?_, hrange⟩)
    simp [readFromSwap, hclear, bind, Except.bind]
  | ok m =>
    obtain ⟨k, hk, rfl⟩ := BitMap.clear_ok hclear
    have hlt := k.isLt
    cases hswap : s.swapFile with
    | none =>
      refine Or.inr (Or.inl ?_)
      simp [readFromSwap, hk, hswap, bind, Except.bind, hlt]
    | some file =>
      refine Or.inl ⟨_, ?_, .swap k file hd hk hswap⟩
      simp [readFromSwap, hk, hswap, bind, Except.bind, hlt]

/-- The branches of `load`: a TLB entry for a page in memory; for any other page a frame, and then
its contents, the tables and the TLB. -/
theorem load_branches (hE : s.HasEntry ⟨sp, vpn⟩) :
    ((s.pageTable ⟨sp, vpn⟩).valid = true ∧ load sp vpn s = updateTLB sp vpn s) ∨
    load sp vpn s = .error .sourceFileMissing ∨
    ((s.pageTable ⟨sp, vpn⟩).valid = false ∧ ∃ n zero K,
      load sp vpn s = acquire zero { s with numPageFaults := n } >>= K ∧
      ∀ f s₁, s₁.files = s.files →
        (s₁.pageTable ⟨sp, vpn⟩).physicalPage = (s.pageTable ⟨sp, vpn⟩).physicalPage →
        (∃ s₂, Filled vpn (s.spaces sp) (s.pageTable ⟨sp, vpn⟩) f s₁ zero s₂ ∧
          K (f, s₁) = updateTLB sp vpn (install ⟨sp, vpn⟩ f s₂)) ∨
        ∃ e, K (f, s₁) = .error e ∧ LoadFault s ⟨sp, vpn⟩ e) := by
  have hlt : vpn < (s.spaces sp).numPages := hE
  cases hv : (s.pageTable ⟨sp, vpn⟩).valid with
  | true =>
    refine Or.inl ⟨rfl, ?_⟩
    simp [load, Nat.not_le.2 hlt, hv]
  | false =>
    refine Or.inr ?_
    cases hd : (s.pageTable ⟨sp, vpn⟩).dirty with
    | false =>
      cases hfile : s.files (s.spaces sp).filename with
      | none =>
        refine Or.inl ?_
        simp [load, Nat.not_le.2 hlt, hv, hd, hfile]
      | some executable =>
        refine Or.inr ⟨rfl, s.numPageFaults + 1, ?_⟩
        have hsame : ∀ s₁ : VM c, s₁.files = s.files →
            s₁.files (s.spaces sp).filename = some executable := by
          intro s₁ hs₁
          rw [hs₁]
          exact hfile
        simp only [load, Nat.not_le.2 hlt, hv, hd, hfile, if_false, Bool.not_false, Bool.and_true,
          if_true]
        split_ifs with h1 h2
        · exact ⟨false, _, loadCode_eq .., fun f s₁ hs₁ _ =>
            Or.inl ⟨_, .file executable hd (hsame s₁ hs₁) (Or.inr h1), rfl⟩⟩
        · exact ⟨false, _, loadInitData_eq .., fun f s₁ hs₁ _ =>
            Or.inl ⟨_, .file executable hd (hsame s₁ hs₁) (Or.inl h2), rfl⟩⟩
        · exact ⟨true, _, loadNoInitData_eq .., fun f s₁ _ _ =>
            Or.inl ⟨_, .blank hd ⟨Nat.not_lt.1 h1, Nat.not_lt.1 h2⟩, rfl⟩⟩
    | true =>
      have hload : load sp vpn s =
          loadSwapped sp vpn { s with numPageFaults := s.numPageFaults } := by
        simp [load, Nat.not_le.2 hlt, hv, hd]
      refine Or.inr ⟨rfl, s.numPageFaults, false, _, hload.trans (loadSwapped_eq ..), ?_⟩
      intro f s₁ _ hpp
      simp only [hpp]
      rcases readFromSwap_spec f s₁ vpn (s.spaces sp) hd with
        ⟨s₂, heq, hfill⟩ | heq | ⟨heq, hrange⟩
      · exact Or.inl ⟨s₂, hfill, by rw [heq]; rfl⟩
      · exact Or.inr ⟨_, by rw [heq]; rfl, Or.inr (Or.inl rfl)⟩
      · exact Or.inr ⟨_, by rw [heq]; rfl, Or.inr (Or.inr (Or.inr ⟨rfl, hv, hd, hrange⟩))⟩

/-- **The description of `load`.** -/
theorem load_spec (h : FramesUpTo A none s) (hsolo : SoloVictim A s ⟨sp, vpn⟩)
    (hc : s.current = some sp) (hE : s.HasEntry ⟨sp, vpn⟩) (hno : ∀ i, ¬ s.Maps i vpn) :
    (∃ s', load sp vpn s = .ok s' ∧ Loaded sp vpn s s' ∧ FramesUpTo A none s') ∨
      ∃ e, load sp vpn s = .error e ∧ LoadFault s ⟨sp, vpn⟩ e := by
  rcases load_branches hE with ⟨hv, hload⟩ | hload | ⟨hv, n, zero, K, hload, hK⟩
  · obtain ⟨x, s₁, heq, hr, hd, hF⟩ := updateTLB_spec h hc hE hv hno
    exact Or.inl ⟨_, hload.trans heq, .resident _ hv (.mk x s₁ hr hd), hF⟩
  · exact Or.inr ⟨_, hload, Or.inr (Or.inr (Or.inl rfl))⟩
  · rw [hload]
    refine acquire_then h hsolo hc hE hno hv n zero K fun f s₁ ha => hK f s₁ ha.static.2.2.2.1 ?_
    rw [ha.entry { h with } hv]

end LoadSpec

end Nachos
