import Nachos.VM.Refresh

/-!
# Frame ownership

`FramesUpTo A hole s` ties the four tables together: the frame bitmap, the inverted table, the page
tables and the TLB.  `A` says which page-table entries may designate one frame together: with
`Alias.none` every frame has one page (`Frames hole s`); after a `Fork` parent and child share.
While `load` has taken a frame and not yet installed the new page in it, that frame is the `hole`:
it is marked, no valid page lies in it, and its `IPT` entry is stale.

`acquire`, `install` and `updateTLB` are the three stages that all bodies of `load` consist of
(`loadCode_eq` and its siblings); each stage has one lemma.
-/

namespace Nachos

open Function

variable {c : Sizes}

/-- Which entries stand for one page: two entries of the same table never do. -/
structure Alias where
  rel : PTRef → PTRef → Prop
  self : ∀ r, rel r r
  separate : ∀ q r r', rel q r → rel q r' → r.space = r'.space → r = r'

/-- Every entry stands for a page of its own. -/
def Alias.none : Alias := ⟨Eq, fun _ => rfl, fun _ _ _ h h' _ => h.symm.trans h'⟩

/-- The frame ownership invariant, with the frame `hole` (if any) set aside. -/
structure FramesUpTo (A : Alias) (hole : Option (Fin c.NumPhysPages)) (s : VM c) : Prop where
  bit : ∀ f, hole ≠ some f → (s.MemBitMap.isSet f = true ↔ s.IPT f ≠ none)
  bit_hole : ∀ f, hole = some f → s.MemBitMap.isSet f = true
  ipt : ∀ f r, hole ≠ some f → s.IPT f = some r →
    s.HasEntry r ∧ (s.pageTable r).valid = true ∧ (s.pageTable r).physicalPage = (f : ℕ)
  owner : ∀ r, s.HasEntry r → (s.pageTable r).valid = true →
    ∃ f q, hole ≠ some f ∧ (s.pageTable r).physicalPage = (f : ℕ) ∧ s.IPT f = some q ∧ A.rel q r
  vpage : ∀ r, s.HasEntry r → (s.pageTable r).virtualPage = r.vpn
  writable : ∀ r, s.HasEntry r → (s.pageTable r).readOnly = false
  tlb : ∀ i, (s.tlb i).valid = true → ∃ sp v, s.current = some sp ∧ s.HasEntry ⟨sp, v⟩ ∧
    (s.pageTable ⟨sp, v⟩).valid = true ∧ (s.tlb i).virtualPage = v ∧
    (s.tlb i).physicalPage = (s.pageTable ⟨sp, v⟩).physicalPage ∧ (s.tlb i).readOnly = false
  tlb_inj : ∀ i j v, s.Maps i v → s.Maps j v → i = j

/-- The invariant when every frame has one page. -/
abbrev Frames (hole : Option (Fin c.NumPhysPages)) (s : VM c) : Prop :=
  FramesUpTo Alias.none hole s

/-- The `IPT` has the entry of every page in memory. -/
theorem Frames.owned {hole : Option (Fin c.NumPhysPages)} {s : VM c} (h : Frames hole s)
    {r : PTRef} (hE : s.HasEntry r) (hv : (s.pageTable r).valid = true) :
    ∃ f, hole ≠ some f ∧ (s.pageTable r).physicalPage = (f : ℕ) ∧ s.IPT f = some r := by
  obtain ⟨f, q, hf, hp, hI, hq⟩ := h.owner r hE hv
  cases hq
  exact ⟨f, hf, hp, hI⟩

/-- No other entry stands for the page of `rv` in memory. -/
def Solo (A : Alias) (s : VM c) (rv : PTRef) : Prop :=
  ∀ r, s.HasEntry r → (s.pageTable r).valid = true → A.rel rv r → r = rv

theorem solo_none (s : VM c) (rv : PTRef) : Solo Alias.none s rv := fun _ _ _ h => h.symm

section Solo

variable {A : Alias} {hole : Option (Fin c.NumPhysPages)} {s : VM c} {f : Fin c.NumPhysPages}
  {q : PTRef}

/-- The page in a frame is the one that the `IPT` has for it, if that has no alias. -/
theorem FramesUpTo.eq_of_frame (h : FramesUpTo A hole s) (hf : s.IPT f = some q)
    (hsolo : Solo A s q) {r : PTRef} (hE : s.HasEntry r) (hv : (s.pageTable r).valid = true)
    (hp : (s.pageTable r).physicalPage = (f : ℕ)) : r = q := by
  obtain ⟨g, q', -, hg, hI, hrel⟩ := h.owner r hE hv
  have hgf : g = f := Fin.ext (by omega)
  rw [hgf, hf] at hI
  cases hI
  exact hsolo r hE hv hrel

/-- Then a TLB entry on the frame maps that page. -/
theorem FramesUpTo.maps_of_frame (h : FramesUpTo A hole s) (hf : s.IPT f = some q)
    (hsolo : Solo A s q) {j : Fin c.TLBSize} (hj : (s.tlb j).valid = true)
    (hp : (s.tlb j).physicalPage = (f : ℕ)) : s.current = some q.space ∧ s.Maps j q.vpn := by
  obtain ⟨sp, v, hc, hE, hval, hvp, hpp, -⟩ := h.tlb j hj
  obtain rfl := h.eq_of_frame hf hsolo hE hval (hpp.symm.trans hp)
  exact ⟨hc, hj, hvp⟩

theorem Frames.frame_unique (h : Frames hole s) {r : PTRef} (hf : s.IPT f = some q)
    (hE : s.HasEntry r) (hv : (s.pageTable r).valid = true)
    (hp : (s.pageTable r).physicalPage = (f : ℕ)) : r = q :=
  h.eq_of_frame hf (solo_none s q) hE hv hp

end Solo

/-- If a frame has to be taken away for the page at `r`, its page has no alias. -/
def SoloVictim (A : Alias) (s : VM c) (r : PTRef) : Prop :=
  (s.pageTable r).valid = false → (∀ f : Fin c.NumPhysPages, s.MemBitMap.isSet f = true) →
    ∀ rv, s.IPT (clockVictim s) = some rv → Solo A s rv

theorem soloVictim_none (s : VM c) (r : PTRef) : SoloVictim Alias.none s r :=
  fun _ _ rv _ => solo_none s rv

/-! ### The bitmap, the `IPT` and the page tables -/

/-- The part of the invariant that does not say whose frames they are. -/
structure FrameTable (hole : Option (Fin c.NumPhysPages)) (s : VM c) : Prop where
  bit : ∀ f, hole ≠ some f → (s.MemBitMap.isSet f = true ↔ s.IPT f ≠ none)
  bit_hole : ∀ f, hole = some f → s.MemBitMap.isSet f = true
  ipt : ∀ f r, hole ≠ some f → s.IPT f = some r →
    s.HasEntry r ∧ (s.pageTable r).valid = true ∧ (s.pageTable r).physicalPage = (f : ℕ)
  vpage : ∀ r, s.HasEntry r → (s.pageTable r).virtualPage = r.vpn
  writable : ∀ r, s.HasEntry r → (s.pageTable r).readOnly = false

namespace FrameTable

variable {hole : Option (Fin c.NumPhysPages)} {s s' : VM c}

/-- Use and dirty bits do not count. -/
theorem congr (h : FrameTable hole s) (hspaces : s'.spaces = s.spaces)
    (hbits : s'.MemBitMap = s.MemBitMap) (hIPT : s'.IPT = s.IPT)
    (hentry : ∀ r, s'.pageTable r =
      { s.pageTable r with use := (s'.pageTable r).use, dirty := (s'.pageTable r).dirty }) :
    FrameTable hole s' := by
  have hE : ∀ r, s'.HasEntry r ↔ s.HasEntry r := by
    intro r
    simp only [VM.HasEntry, hspaces]
  constructor
  · intro f hf
    rw [hbits, hIPT]
    exact h.bit f hf
  · intro f hf
    rw [hbits]
    exact h.bit_hole f hf
  · intro f r hf hi
    rw [hIPT] at hi
    rw [hE, hentry r]
    exact h.ipt f r hf hi
  · intro r hr
    rw [hentry r]
    exact h.vpage r ((hE r).1 hr)
  · intro r hr
    rw [hentry r]
    exact h.writable r ((hE r).1 hr)

/-- When every frame is taken, the clock has a valid page in each to look at. -/
theorem iptFull (h : FrameTable none s)
    (hfull : ∀ f : Fin c.NumPhysPages, s.MemBitMap.isSet f = true) : IPTFull s := by
  intro f
  obtain ⟨r, hr⟩ := Option.ne_none_iff_exists'.1 ((h.bit f (by simp)).1 (hfull f))
  refine ⟨r, hr, (h.ipt f r (by simp) hr).2.1, fun g hg => ?_⟩
  have h1 := (h.ipt f r (by simp) hr).2.2
  have h2 := (h.ipt g r (by simp) hg).2.2
  exact Fin.ext (by omega)

/-- A frame is marked and set aside. -/
theorem mark (h : FrameTable none s) (f : Fin c.NumPhysPages) :
    FrameTable (some f) { s with MemBitMap := s.MemBitMap.setBit f } where
  bit g hg := by
    have hne : (f : ℕ) ≠ g := fun he => hg (by rw [Fin.ext he])
    simpa [hne] using h.bit g (by simp)
  bit_hole g hg := by
    cases hg
    simp
  ipt g r _ hi := h.ipt g r (by simp) hi
  vpage := h.vpage
  writable := h.writable

/-- The frame `x` of `rv` becomes the hole, wherever the page goes. -/
theorem takeDown (h : FrameTable none s) {x : Fin c.NumPhysPages} {rv : PTRef}
    (hx : s.IPT x = some rv) (pp : ℤ) : FrameTable (some x)
      { s.modifyEntry rv fun e => { e with valid := false, physicalPage := pp } with
        MemBitMap := (s.MemBitMap.clearBit x).setBit x } where
  bit f hf := by
    have hne : (x : ℕ) ≠ f := fun he => hf (by rw [Fin.ext he])
    simpa [hne] using h.bit f (by simp)
  bit_hole f hf := by
    cases hf
    simp
  ipt f r hf hi := by
    obtain ⟨hE, hv, hp⟩ := h.ipt f r (by simp) hi
    have hne : r ≠ rv := by
      rintro rfl
      have := (h.ipt x r (by simp) hx).2.2
      exact hf (by rw [Fin.ext (show (x : ℕ) = f by omega)])
    simp only [VM.modifyEntry, update_of_ne hne]
    exact ⟨hE, hv, hp⟩
  vpage r hE := by
    by_cases hr : r = rv
    · subst hr
      simpa using h.vpage r hE
    · simp only [VM.modifyEntry, update_of_ne hr]
      exact h.vpage r hE
  writable r hE := by
    by_cases hr : r = rv
    · subst hr
      simpa using h.writable r hE
    · simp only [VM.modifyEntry, update_of_ne hr]
      exact h.writable r hE

end FrameTable

variable {A : Alias}

theorem FramesUpTo.frameTable {hole : Option (Fin c.NumPhysPages)} {s : VM c}
    (h : FramesUpTo A hole s) : FrameTable hole s := { h with }

/-- A valid TLB entry names a page of the current space. -/
theorem FramesUpTo.tlb_range {hole : Option (Fin c.NumPhysPages)} {s : VM c}
    (h : FramesUpTo A hole s) {sp : ℕ} (hc : s.current = some sp) (i : Fin c.TLBSize)
    (hv : (s.tlb i).valid = true) :
    0 ≤ (s.tlb i).virtualPage ∧ (s.tlb i).virtualPage < (s.spaces sp).numPages := by
  obtain ⟨sp', v, hc', hE, -, hvp, -⟩ := h.tlb i hv
  rw [hc] at hc'
  cases hc'
  have hlt : v < (s.spaces sp).numPages := hE
  omega

/-- The page that a TLB entry mirrors. -/
theorem FramesUpTo.mirror {hole : Option (Fin c.NumPhysPages)} {s : VM c} (h : FramesUpTo A hole s)
    {sp v : ℕ} (hc : s.current = some sp) {i : Fin c.TLBSize} (hm : s.Maps i v) :
    s.HasEntry ⟨sp, v⟩ ∧ (s.pageTable ⟨sp, v⟩).valid = true ∧
      (s.tlb i).physicalPage = (s.pageTable ⟨sp, v⟩).physicalPage ∧
      (s.tlb i).readOnly = false := by
  obtain ⟨sp', v', hc', hE, hval, hvp, hpp, hro⟩ := h.tlb i hm.1
  rw [hc] at hc'
  cases hc'
  have : v' = v := by have := hm.2; omega
  subst this
  exact ⟨hE, hval, hpp, hro⟩

/-- Use and dirty bits do not count, and the TLB may lose entries. -/
theorem FramesUpTo.congr_bits {hole : Option (Fin c.NumPhysPages)} {s s' : VM c}
    (h : FramesUpTo A hole s) (hspaces : s'.spaces = s.spaces)
    (hbits : s'.MemBitMap = s.MemBitMap) (hIPT : s'.IPT = s.IPT) (hcur : s'.current = s.current)
    (hentry : ∀ r, s'.pageTable r =
      { s.pageTable r with use := (s'.pageTable r).use, dirty := (s'.pageTable r).dirty })
    (htlb : ∀ i, s'.tlb i =
      { s.tlb i with use := (s'.tlb i).use, valid := (s'.tlb i).valid })
    (hvalid : ∀ i, (s'.tlb i).valid = true → (s.tlb i).valid = true) : FramesUpTo A hole s' := by
  have hE : ∀ r, s'.HasEntry r ↔ s.HasEntry r := by
    intro r
    simp only [VM.HasEntry, hspaces]
  have hmaps : ∀ i v, s'.Maps i v → s.Maps i v := by
    intro i v hm
    refine ⟨hvalid i hm.1, ?_⟩
    have hv := hm.2
    rw [htlb i] at hv
    exact hv
  exact
    { h.frameTable.congr hspaces hbits hIPT hentry with
      owner := by
        intro r hr hv
        rw [hentry r] at hv
        rw [hentry r, hIPT]
        exact h.owner r ((hE r).1 hr) hv
      tlb := by
        intro i hv
        obtain ⟨sp, v, hc, hEr, hval, hvp, hpp, hro⟩ := h.tlb i (hvalid i hv)
        refine ⟨sp, v, hcur.trans hc, (hE _).2 hEr, ?_⟩
        rw [htlb i, hentry ⟨sp, v⟩]
        exact ⟨hval, hvp, hpp, hro⟩
      tlb_inj := fun i j v hi hj => h.tlb_inj i j v (hmaps i v hi) (hmaps j v hj) }

theorem FramesUpTo.bitsOnly {hole : Option (Fin c.NumPhysPages)} {s s' : VM c}
    (h : FramesUpTo A hole s) (hr : BitsOnly s s') : FramesUpTo A hole s' := by
  refine h.congr_bits hr.spaces hr.MemBitMap hr.IPT hr.current hr.entry (fun i => ?_) fun i hv => ?_
  · rw [hr.tlb i]
  · rwa [hr.tlb_valid] at hv

/-- Two valid TLB entries on one frame are the same entry. -/
theorem FramesUpTo.tlb_frame_inj {s : VM c} (h : FramesUpTo A none s) {i j : Fin c.TLBSize}
    (hi : (s.tlb i).valid = true) (hj : (s.tlb j).valid = true)
    (hp : (s.tlb i).physicalPage = (s.tlb j).physicalPage) : i = j := by
  obtain ⟨sp, v, hc, hE, hval, hvp, hpp, -⟩ := h.tlb i hi
  obtain ⟨sp', v', hc', hE', hval', hvp', hpp', -⟩ := h.tlb j hj
  obtain ⟨f, q, -, hf, hIf, hq⟩ := h.owner _ hE hval
  obtain ⟨g, q', -, hg, hIg, hq'⟩ := h.owner _ hE' hval'
  have hfg : f = g := Fin.ext (by omega)
  subst hfg
  rw [hIf] at hIg
  cases hIg
  rw [hc] at hc'
  cases hc'
  cases A.separate _ _ _ hq hq' rfl
  exact h.tlb_inj i j v ⟨hi, hvp⟩ ⟨hj, hvp'⟩

/-! ### The stages of `load` -/

/-- Take down a clean page; `zero` says whether its frame is cleared. -/
def dropClean (zero : Bool) (r : PTRef) (s : VM c) : Except Fault (VM c) := do
  let MemBitMap ← s.MemBitMap.clear (s.pageTable r).physicalPage
  let s' := { s.modifyEntry r fun e => { e with valid := false, physicalPage := -1 } with
    MemBitMap := MemBitMap }
  if zero then clearPhysicalPage (s.pageTable r).physicalPage s' else .ok s'

theorem dropClean_false_bind {α : Type} (r : PTRef) (s : VM c) (K : VM c → Except Fault α) :
    dropClean false r s >>= K = s.MemBitMap.clear (s.pageTable r).physicalPage >>= fun m =>
      K { s.modifyEntry r fun e => { e with valid := false, physicalPage := -1 } with
        MemBitMap := m } := by
  unfold dropClean
  cases s.MemBitMap.clear (s.pageTable r).physicalPage <;> rfl

theorem dropClean_true_bind {α : Type} (r : PTRef) (s : VM c) (K : VM c → Except Fault α) :
    dropClean true r s >>= K = s.MemBitMap.clear (s.pageTable r).physicalPage >>= fun m =>
      clearPhysicalPage (s.pageTable r).physicalPage
        { s.modifyEntry r fun e => { e with valid := false, physicalPage := -1 } with
          MemBitMap := m } >>= K := by
  unfold dropClean
  cases s.MemBitMap.clear (s.pageTable r).physicalPage <;> rfl

/-- Take its frame away from the page that the clock selects. -/
def evict (zero : Bool) (s : VM c) : Except Fault (VM c) := do
  let s ← selectVictim s
  let r ← victimRef s
  if (s.pageTable r).dirty then writeIntoSwap (s.pageTable r).physicalPage s
  else dropClean zero r s

/-- Get a frame: a free one, or else that of the clock's victim. -/
def acquire (zero : Bool) (s : VM c) : Except Fault (Fin c.NumPhysPages × VM c) :=
  match s.MemBitMap.find with
  | (some freeFrame, MemBitMap) => .ok (freeFrame, { s with MemBitMap := MemBitMap })
  | (none, _) => do
    let s ← evict zero s
    findFreeFrame s

/-- Enter the page at `r` into frame `f`. -/
@[simp] def install (r : PTRef) (f : Fin c.NumPhysPages) (s : VM c) : VM c :=
  { s.modifyEntry r fun e => { e with physicalPage := (f : ℕ), valid := true } with
    IPT := update s.IPT f (some r) }

/-- `acquire` followed by anything, with the branches of the source. -/
theorem acquire_bind (zero : Bool) (s : VM c)
    (K : Fin c.NumPhysPages × VM c → Except Fault (VM c)) :
    acquire zero s >>= K =
      (match s.MemBitMap.find with
      | (some f, MemBitMap) => K (f, { s with MemBitMap := MemBitMap })
      | (none, _) => do
        let s ← selectVictim s
        let r ← victimRef s
        if (s.pageTable r).dirty then
          let s ← writeIntoSwap (s.pageTable r).physicalPage s
          let p ← findFreeFrame s
          K p
        else
          let s ← dropClean zero r s
          let p ← findFreeFrame s
          K p) := by
  unfold acquire evict
  rcases s.MemBitMap.find with ⟨_ | f, m⟩
  · simp only [bind, Except.bind]
    rcases selectVictim s with e | s
    · rfl
    · simp only
      rcases victimRef s with e | r
      · rfl
      · simp only
        split_ifs with hd
        · rcases writeIntoSwap (s.pageTable r).physicalPage s with e | s <;> rfl
        · rcases dropClean zero r s with e | s <;> rfl
  · rfl

/-- Setting the frame number, filling the frame and then setting the valid bit is `install`. -/
theorem install_readExecutable (r : PTRef) (f : Fin c.NumPhysPages) (executable : File) (vpn : ℕ)
    (s : VM c) :
    ({ (readExecutable executable f vpn
          (s.modifyEntry r fun e => { e with physicalPage := (f : ℕ) })).modifyEntry r
          fun e => { e with valid := true } with
        IPT := update s.IPT f (some r) } : VM c) =
      install r f (readExecutable executable f vpn s) := by
  simp [readExecutable]

theorem loadCode_eq (sp vpn : ℕ) (executable : File) (s : VM c) :
    loadCode sp vpn executable s = acquire false s >>= fun p =>
      updateTLB sp vpn (install ⟨sp, vpn⟩ p.1 (readExecutable executable p.1 vpn p.2)) := by
  rw [acquire_bind]
  simp only [dropClean_false_bind, ← install_readExecutable]
  rfl

theorem loadInitData_eq (sp vpn : ℕ) (executable : File) (s : VM c) :
    loadInitData sp vpn executable s = acquire false s >>= fun p =>
      updateTLB sp vpn (install ⟨sp, vpn⟩ p.1 (readExecutable executable p.1 vpn p.2)) := by
  rw [acquire_bind]
  simp only [dropClean_false_bind, ← install_readExecutable]
  rfl

theorem loadNoInitData_eq (sp vpn : ℕ) (s : VM c) :
    loadNoInitData sp vpn s = acquire true s >>= fun p =>
      updateTLB sp vpn (install ⟨sp, vpn⟩ p.1 p.2) := by
  rw [acquire_bind]
  simp only [dropClean_true_bind]
  rfl

/-- Reading from the swap file does not touch the page tables. -/
theorem readFromSwap_modifyEntry (f : Fin c.NumPhysPages) (swapPage : ℤ) (r : PTRef)
    (g : TranslationEntry → TranslationEntry) (s : VM c) :
    readFromSwap f swapPage (s.modifyEntry r g) =
      (readFromSwap f swapPage s).map fun s => s.modifyEntry r g := by
  unfold readFromSwap
  simp only [VM.modifyEntry, bind, Except.bind]
  rcases s.SWAPBitMap.clear swapPage with e | m
  · rfl
  · simp only
    split_ifs
    · cases s.swapFile <;> rfl
    · rfl

theorem install_readFromSwap (sp vpn : ℕ) (f : Fin c.NumPhysPages) (s : VM c) :
    (do
      let oldSwapPageAddr := (s.pageTable ⟨sp, vpn⟩).physicalPage
      let s := s.modifyEntry ⟨sp, vpn⟩ fun e => { e with physicalPage := (f : ℕ) }
      let s ← readFromSwap f oldSwapPageAddr s
      let s := s.modifyEntry ⟨sp, vpn⟩ fun e => { e with valid := true }
      let s := { s with IPT := update s.IPT f (some ⟨sp, vpn⟩) }
      updateTLB sp vpn s) =
    readFromSwap f (s.pageTable ⟨sp, vpn⟩).physicalPage s >>= fun s =>
      updateTLB sp vpn (install ⟨sp, vpn⟩ f s) := by
  simp only [readFromSwap_modifyEntry]
  rcases readFromSwap f (s.pageTable ⟨sp, vpn⟩).physicalPage s with e | s
  · rfl
  · show updateTLB sp vpn _ = updateTLB sp vpn _
    simp

theorem loadSwapped_eq (sp vpn : ℕ) (s : VM c) :
    loadSwapped sp vpn s = acquire false s >>= fun p =>
      readFromSwap p.1 (p.2.pageTable ⟨sp, vpn⟩).physicalPage p.2 >>= fun s =>
        updateTLB sp vpn (install ⟨sp, vpn⟩ p.1 s) := by
  rw [funext fun p : Fin c.NumPhysPages × VM c => (install_readFromSwap sp vpn p.1 p.2).symm,
    acquire_bind]
  simp only [dropClean_false_bind]
  rfl

/-! ### Getting a frame -/

/-- What `selectVictim` does when it selects the page `rv` in frame `x`: the TLB forgets the
frame, and the page table has the page's dirty bit. -/
structure Selected (s : VM c) (x : Fin c.NumPhysPages) (rv : PTRef) (s' : VM c) : Prop where
  ipt : s.IPT x = some rv
  mainMemory : s'.mainMemory = s.mainMemory
  MemBitMap : s'.MemBitMap = s.MemBitMap
  SWAPBitMap : s'.SWAPBitMap = s.SWAPBitMap
  IPT : s'.IPT = s.IPT
  spaces : s'.spaces = s.spaces
  numSpaces : s'.numSpaces = s.numSpaces
  current : s'.current = s.current
  files : s'.files = s.files
  swapFile : s'.swapFile = s.swapFile
  fifo : s'.indexSWAPFIFO = x
  tlb : ∀ j, s'.tlb j = { s.tlb j with
    use := (s'.tlb j).use
    valid := (s.tlb j).valid && !decide ((s.tlb j).physicalPage = (x : ℕ)) }
  entry : ∀ r, s'.pageTable r =
    { s.pageTable r with use := (s'.pageTable r).use, dirty := (s'.pageTable r).dirty }
  other : ∀ r, r ≠ rv → (s'.pageTable r).dirty = (s.pageTable r).dirty
  dirty_tlb : ∀ j, (s.tlb j).valid = true → (s.tlb j).physicalPage = (x : ℕ) →
    (s'.pageTable rv).dirty = (s.tlb j).dirty
  dirty_table : (∀ j, (s.tlb j).valid = true → (s.tlb j).physicalPage ≠ (x : ℕ)) →
    (s'.pageTable rv).dirty = (s.pageTable rv).dirty

/-- `updateSwapVictimInfo` finds a TLB entry on the frame of the victim, or there is none. -/
theorem updateSwapVictimInfo_spec {s : VM c} {x : Fin c.NumPhysPages} {rv : PTRef}
    (hi : s.IPT x = some rv) (hpp : (s.pageTable rv).physicalPage = (x : ℕ)) :
    ((∀ j, (s.tlb j).valid = true → (s.tlb j).physicalPage ≠ (x : ℕ)) ∧
      updateSwapVictimInfo x s = .ok s) ∨
    ∃ i, (s.tlb i).valid = true ∧ (s.tlb i).physicalPage = (x : ℕ) ∧
      updateSwapVictimInfo x s = .ok ((s.setTLB i { s.tlb i with valid := false }).modifyEntry rv
        fun e => { e with use := (s.tlb i).use, dirty := (s.tlb i).dirty }) := by
  simp only [updateSwapVictimInfo, hi, hpp]
  cases hfind : (List.finRange c.TLBSize).find? fun i =>
      (s.tlb i).valid && (s.tlb i).physicalPage == ((x : ℕ) : ℤ) with
  | none =>
    refine Or.inl ⟨fun j hj hp => ?_, rfl⟩
    have := List.find?_eq_none.1 hfind j (List.mem_finRange j)
    simp [hj, hp] at this
  | some i =>
    have hi := List.find?_some hfind
    simp only [Bool.and_eq_true, beq_iff_eq] at hi
    exact Or.inr ⟨i, hi.1, hi.2, rfl⟩

/-- An entry on another frame, or an invalid one, stays as it is. -/
theorem valid_and_not_frame {e : TranslationEntry} {x : ℕ}
    (h : e.valid = true → e.physicalPage ≠ (x : ℕ)) :
    (e.valid && !decide (e.physicalPage = (x : ℕ))) = e.valid := by
  cases hv : e.valid with
  | false => rfl
  | true => simp [h hv]

section Select

variable {s s₁ : VM c} {x : Fin c.NumPhysPages} {rv : PTRef}

theorem Refresh.selected_absent (hr : Refresh s s₁)
    (hd : ∀ r, (s₁.pageTable r).dirty = (s.pageTable r).dirty) (hrv : s.IPT x = some rv)
    (hno : ∀ j, (s.tlb j).valid = true → (s.tlb j).physicalPage ≠ (x : ℕ)) :
    Selected s x rv { s₁ with indexSWAPFIFO := x } :=
  { hr with
    ipt := hrv
    fifo := rfl
    tlb := fun j => by
      rw [valid_and_not_frame (hno j)]
      exact hr.tlb j
    other := fun r _ => hd r
    dirty_tlb := fun j hj hp => absurd hp (hno j hj)
    dirty_table := fun _ => hd rv }

theorem Refresh.selected_dropped (hr : Refresh s s₁)
    (hd : ∀ r, (s₁.pageTable r).dirty = (s.pageTable r).dirty) (hrv : s.IPT x = some rv)
    {i : Fin c.TLBSize} (hv : (s.tlb i).valid = true) (hp : (s.tlb i).physicalPage = (x : ℕ))
    (honly : ∀ j, (s.tlb j).valid = true → (s.tlb j).physicalPage = (x : ℕ) → j = i) :
    Selected s x rv (({ s₁ with indexSWAPFIFO := x }.setTLB i { s₁.tlb i with valid := false
      }).modifyEntry rv fun e => { e with use := (s₁.tlb i).use, dirty := (s₁.tlb i).dirty }) :=
  { hr with
    ipt := hrv
    fifo := rfl
    tlb := fun j => by
      by_cases hj : j = i
      · subst hj
        simp [hr.tlb_virtualPage, hr.tlb_physicalPage,
          hr.tlb_readOnly, hr.tlb_dirty, hp]
      · rw [valid_and_not_frame fun hv' hp' => hj (honly j hv' hp')]
        simp only [VM.setTLB, VM.modifyEntry, update_of_ne hj]
        exact hr.tlb j
    entry := fun r => by
      by_cases hrr : r = rv
      · subst hrr
        simp [hr.valid, hr.virtualPage, hr.physicalPage, hr.readOnly]
      · simp only [VM.setTLB, VM.modifyEntry, update_of_ne hrr]
        exact hr.entry r
    other := fun r hrr => by
      simp only [VM.setTLB, VM.modifyEntry, update_of_ne hrr]
      exact hd r
    dirty_tlb := fun j hj hp' => by
      obtain rfl := honly j hj hp'
      simp [hr.tlb_dirty]
    dirty_table := fun hno => absurd hp (hno i hv) }

end Select

/-- The clock comes to an end, and `updateSwapVictimInfo` looks at the page it has selected. -/
theorem FrameTable.selectVictim_eq {s : VM c} (h : FrameTable none s)
    (hfull : ∀ f : Fin c.NumPhysPages, s.MemBitMap.isSet f = true) :
    ∃ rv s₁, s.IPT (clockVictim s) = some rv ∧ Refresh s s₁ ∧
      (∀ r, (s₁.pageTable r).dirty = (s.pageTable r).dirty) ∧
      s₁.IPT (clockVictim s) = some rv ∧
      (s₁.pageTable rv).physicalPage = (clockVictim s : ℕ) ∧
      selectVictim s =
        updateSwapVictimInfo (clockVictim s) { s₁ with indexSWAPFIFO := clockVictim s } := by
  obtain ⟨s₁, heq, hr, hd⟩ := getNextSCSWAP_spec (h.iptFull hfull)
  obtain ⟨rv, hrv, -, -⟩ := h.iptFull hfull (clockVictim s)
  refine ⟨rv, s₁, hrv, hr, hd, by rw [hr.IPT, hrv], ?_, ?_⟩
  · rw [hr.physicalPage]
    exact (h.ipt _ rv (by simp) hrv).2.2
  · rw [selectVictim, heq]
    rfl

theorem selectVictim_spec {s : VM c} (h : FramesUpTo A none s)
    (hfull : ∀ f : Fin c.NumPhysPages, s.MemBitMap.isSet f = true) :
    ∃ rv s', selectVictim s = .ok s' ∧ Selected s (clockVictim s) rv s' := by
  obtain ⟨rv, s₁, hrv, hr, hd, hrv₁, hpp, hbind⟩ := h.frameTable.selectVictim_eq hfull
  rw [hbind]
  generalize clockVictim s = x at *
  rcases updateSwapVictimInfo_spec (s := { s₁ with indexSWAPFIFO := x }) hrv₁ hpp with
    ⟨hno, hu⟩ | ⟨i, hv, hp, hu⟩
  · refine ⟨rv, _, hu, hr.selected_absent hd hrv fun j hj => ?_⟩
    rw [← hr.tlb_physicalPage]
    exact hno j ((hr.tlb_valid j).trans hj)
  · have hv' : (s.tlb i).valid = true := (hr.tlb_valid i).symm.trans hv
    have hp' : (s.tlb i).physicalPage = (x : ℕ) := (hr.tlb_physicalPage i).symm.trans hp
    exact ⟨rv, _, hu, hr.selected_dropped hd hrv hv' hp' fun j hj hpj =>
      h.tlb_frame_inj hj hv' (hpj.trans hp'.symm)⟩

namespace Selected

variable {s s' : VM c} {x : Fin c.NumPhysPages} {rv : PTRef} (h : Selected s x rv s')
include h

theorem valid (r) : (s'.pageTable r).valid = (s.pageTable r).valid := by rw [h.entry r]
theorem hasEntry (r) : s'.HasEntry r ↔ s.HasEntry r := by simp only [VM.HasEntry, h.spaces]

theorem tlb_valid (j) : (s'.tlb j).valid = true ↔
    (s.tlb j).valid = true ∧ (s.tlb j).physicalPage ≠ (x : ℕ) := by
  rw [h.tlb j]
  simp

theorem tlb_virtualPage (j) : (s'.tlb j).virtualPage = (s.tlb j).virtualPage := by rw [h.tlb j]
theorem tlb_physicalPage (j) : (s'.tlb j).physicalPage = (s.tlb j).physicalPage := by
  rw [h.tlb j]
theorem tlb_dirty (j) : (s'.tlb j).dirty = (s.tlb j).dirty := by rw [h.tlb j]

theorem maps (j v) : s'.Maps j v ↔ s.Maps j v ∧ (s.tlb j).physicalPage ≠ (x : ℕ) := by
  simp only [VM.Maps, h.tlb_valid, h.tlb_virtualPage]
  tauto

theorem frames (hF : FramesUpTo A none s) : FramesUpTo A none s' := by
  refine hF.congr_bits h.spaces h.MemBitMap h.IPT h.current h.entry (fun i => ?_) fun i hv => ?_
  · rw [h.tlb i]
  · exact ((h.tlb_valid i).1 hv).1

theorem solo {q : PTRef} (hs : Solo A s q) : Solo A s' q := fun r hE hv hq =>
  hs r ((h.hasEntry r).1 hE) (h.valid r ▸ hv) hq

end Selected

/-- The state after the frame `x` was taken from its page `rv`, clean or dirty, and marked again
for the new page. -/
inductive Evicted (zero : Bool) (s : VM c) (x : Fin c.NumPhysPages) (rv : PTRef) : VM c → Prop
  | clean (s₁ : VM c) (h : Selected s x rv s₁) (hd : (s₁.pageTable rv).dirty = false) :
    Evicted zero s x rv
      { s₁.modifyEntry rv fun e => { e with valid := false, physicalPage := -1 } with
        MemBitMap := (s₁.MemBitMap.clearBit x).setBit x
        mainMemory := fun a =>
          if zero = true ∧ x * PageSize ≤ a ∧ a < x * PageSize + PageSize then 0
          else s₁.mainMemory a }
  | dirty (s₁ : VM c) (k : Fin c.SWAPSize) (m : BitMap c.SWAPSize) (file : File)
    (h : Selected s x rv s₁) (hd : (s₁.pageTable rv).dirty = true)
    (hfind : s₁.SWAPBitMap.find = (some k, m)) (hfile : s₁.swapFile = some file) :
    Evicted zero s x rv
      { s₁.modifyEntry rv fun e => { e with valid := false, physicalPage := (k : ℕ) } with
        MemBitMap := (s₁.MemBitMap.clearBit x).setBit x
        SWAPBitMap := m
        swapFile := file.writeAt s₁.mainMemory (x * PageSize) PageSize (k * PageSize) }

/-- The two outcomes of `acquire` that are not faults. -/
inductive Acquired (zero : Bool) (s : VM c) : Fin c.NumPhysPages → VM c → Prop
  | free (f : Fin c.NumPhysPages) (m : BitMap c.NumPhysPages)
    (hfind : s.MemBitMap.find = (some f, m)) : Acquired zero s f { s with MemBitMap := m }
  | evicted (rv : PTRef) (s' : VM c) (hfull : ∀ g : Fin c.NumPhysPages, s.MemBitMap.isSet g = true)
    (h : Evicted zero s (clockVictim s) rv s') : Acquired zero s (clockVictim s) s'

theorem findFreeFrame_only {s : VM c} {x : Fin c.NumPhysPages} (hx : s.MemBitMap.isSet x = false)
    (ho : ∀ g : Fin c.NumPhysPages, g ≠ x → s.MemBitMap.isSet g = true) :
    findFreeFrame s = .ok (x, { s with MemBitMap := s.MemBitMap.setBit x }) := by
  rw [findFreeFrame, BitMap.find_only hx ho]

theorem clearPhysicalPage_fin (x : Fin c.NumPhysPages) (s : VM c) :
    clearPhysicalPage ((x : ℕ) : ℤ) s = .ok { s with mainMemory := fun a =>
      if x * PageSize ≤ a ∧ a < x * PageSize + PageSize then 0 else s.mainMemory a } := by
  have := x.isLt
  rw [clearPhysicalPage, if_pos (by omega)]
  simp only [Int.toNat_natCast]

/-- The write of a dirty page whose frame is `indexSWAPFIFO`. -/
theorem writeIntoSwap_spec {s : VM c} {x : Fin c.NumPhysPages} {rv : PTRef}
    (hx : s.indexSWAPFIFO = x) (hr : s.IPT x = some rv) :
    (∃ k m file, s.SWAPBitMap.find = (some k, m) ∧ s.swapFile = some file ∧
      writeIntoSwap ((x : ℕ) : ℤ) s = .ok
        { s.modifyEntry rv fun e => { e with valid := false, physicalPage := (k : ℕ) } with
          MemBitMap := s.MemBitMap.clearBit x
          SWAPBitMap := m
          swapFile := file.writeAt s.mainMemory (x * PageSize) PageSize (k * PageSize) }) ∨
      writeIntoSwap ((x : ℕ) : ℤ) s = .error .swapFull ∨
      writeIntoSwap ((x : ℕ) : ℤ) s = .error .swapFileMissing := by
  have hlt := x.isLt
  have hrange : (0 : ℤ) ≤ ((x : ℕ) : ℤ) ∧ ((x : ℕ) : ℤ) < c.NumPhysPages := by omega
  simp only [writeIntoSwap, hrange, and_self, dite_true, Int.toNat_natCast, Fin.eta, hr]
  rcases hf : s.SWAPBitMap.find with ⟨_ | k, m⟩
  · exact Or.inr (Or.inl rfl)
  · cases hs : s.swapFile with
    | none => exact Or.inr (Or.inr rfl)
    | some file =>
      refine Or.inl ⟨k, m, file, rfl, rfl, ?_⟩
      simp [hx]

/-- The page `rv` is taken out of its frame `x`, and `x` is marked again for the new page. -/
theorem evict_spec (zero : Bool) {s s₁ : VM c} {x : Fin c.NumPhysPages} {rv : PTRef}
    (hsel : selectVictim s = .ok s₁) (hx : s₁.indexSWAPFIFO = x) (hr : s₁.IPT x = some rv)
    (hpp : (s₁.pageTable rv).physicalPage = (x : ℕ))
    (hfull : ∀ g : Fin c.NumPhysPages, s₁.MemBitMap.isSet g = true) :
    ((s₁.pageTable rv).dirty = false ∧ (evict zero s >>= findFreeFrame) = .ok (x,
      { s₁.modifyEntry rv fun e => { e with valid := false, physicalPage := -1 } with
        MemBitMap := (s₁.MemBitMap.clearBit x).setBit x
        mainMemory := fun a =>
          if zero = true ∧ x * PageSize ≤ a ∧ a < x * PageSize + PageSize then 0
          else s₁.mainMemory a })) ∨
    ((s₁.pageTable rv).dirty = true ∧ ∃ k m file, s₁.SWAPBitMap.find = (some k, m) ∧
      s₁.swapFile = some file ∧ (evict zero s >>= findFreeFrame) = .ok (x,
        { s₁.modifyEntry rv fun e => { e with valid := false, physicalPage := (k : ℕ) } with
          MemBitMap := (s₁.MemBitMap.clearBit x).setBit x
          SWAPBitMap := m
          swapFile := file.writeAt s₁.mainMemory (x * PageSize) PageSize (k * PageSize) })) ∨
      (evict zero s >>= findFreeFrame) = .error .swapFull ∨
      (evict zero s >>= findFreeFrame) = .error .swapFileMissing := by
  -- after either kind of eviction the victim's bit is the only clear one
  have hfind : ∀ t : VM c, t.MemBitMap = s₁.MemBitMap.clearBit x →
      findFreeFrame t = .ok (x, { t with MemBitMap := t.MemBitMap.setBit x }) := by
    intro t ht
    refine findFreeFrame_only (by simp [ht]) fun g hg => ?_
    have hne : (x : ℕ) ≠ g := fun he => hg (Fin.ext he.symm)
    simp [ht, hne, hfull g]
  have hevict : evict zero s = if (s₁.pageTable rv).dirty then writeIntoSwap ((x : ℕ) : ℤ) s₁
      else dropClean zero rv s₁ := by
    simp only [evict, hsel, victimRef, hx, hr, hpp, bind, Except.bind]
  rw [hevict]
  cases hd : (s₁.pageTable rv).dirty with
  | true =>
    rw [if_pos rfl]
    rcases writeIntoSwap_spec hx hr with ⟨k, m, file, hk, hfile, hw⟩ | hw | hw
    · exact Or.inr (Or.inl ⟨rfl, k, m, file, hk, hfile, by rw [hw]; exact hfind _ rfl⟩)
    · exact Or.inr (Or.inr (Or.inl (by rw [hw]; rfl)))
    · exact Or.inr (Or.inr (Or.inr (by rw [hw]; rfl)))
  | false =>
    rw [if_neg (by simp)]
    refine Or.inl ⟨rfl, ?_⟩
    simp only [dropClean, hpp, BitMap.clear_fin, bind, Except.bind, clearPhysicalPage_fin]
    cases zero with
    | false =>
      simp only [Bool.false_eq_true, if_false, false_and]
      rw [hfind]
      · rfl
      · rfl
    | true =>
      simp only [if_true, true_and]
      rw [hfind]
      · rfl
      · rfl

/-- **`acquire` gives a frame**, or reports that there is no room in the swap file. -/
theorem acquire_spec (zero : Bool) {s : VM c} (h : FramesUpTo A none s) :
    (∃ f s', acquire zero s = .ok (f, s') ∧ Acquired zero s f s') ∨
      acquire zero s = .error .swapFull ∨ acquire zero s = .error .swapFileMissing := by
  unfold acquire
  rcases hf : s.MemBitMap.find with ⟨_ | f, m⟩
  swap
  · exact Or.inl ⟨f, _, rfl, .free f m hf⟩
  have hfull := (BitMap.find_none hf).1
  obtain ⟨rv, s₁, heq, hsel⟩ := selectVictim_spec h hfull
  have hIPT : s₁.IPT (clockVictim s) = some rv := hsel.IPT ▸ hsel.ipt
  have hpp : (s₁.pageTable rv).physicalPage = (clockVictim s : ℕ) :=
    ((hsel.frames h).ipt _ rv (by simp) hIPT).2.2
  rcases evict_spec zero heq hsel.fifo hIPT hpp (by rw [hsel.MemBitMap]; exact hfull) with
    ⟨hd, he⟩ | ⟨hd, k, m, file, hk, hfile, he⟩ | he | he
  · exact Or.inl ⟨_, _, he, .evicted rv _ hfull (.clean s₁ hsel hd)⟩
  · exact Or.inl ⟨_, _, he, .evicted rv _ hfull (.dirty s₁ k m file hsel hd hk hfile)⟩
  · exact Or.inr (Or.inl he)
  · exact Or.inr (Or.inr he)

/-! ### The stages keep the invariant -/

theorem FramesUpTo.takeDown {s : VM c} (h : FramesUpTo A none s) {x : Fin c.NumPhysPages}
    {rv : PTRef} (hx : s.IPT x = some rv) (hsolo : Solo A s rv)
    (htlb : ∀ j, (s.tlb j).valid = true → (s.tlb j).physicalPage ≠ (x : ℕ)) (pp : ℤ) :
    FramesUpTo A (some x)
      { s.modifyEntry rv fun e => { e with valid := false, physicalPage := pp } with
        MemBitMap := (s.MemBitMap.clearBit x).setBit x } :=
  { h.frameTable.takeDown hx pp with
    owner := by
      intro r hE hv
      by_cases hr : r = rv
      · subst hr
        simp at hv
      · simp only [VM.modifyEntry, update_of_ne hr] at hv ⊢
        obtain ⟨f, q, -, hp, hi, hq⟩ := h.owner r hE hv
        refine ⟨f, q, ?_, hp, hi, hq⟩
        intro he
        cases he
        rw [hx] at hi
        cases hi
        exact hr (hsolo r hE hv hq)
    tlb := by
      intro i hv
      obtain ⟨sp, v, hc, hE, hval, hvp, hpp, hro⟩ := h.tlb i hv
      have hne : (⟨sp, v⟩ : PTRef) ≠ rv := by
        rintro rfl
        exact htlb i hv (hpp.trans (h.ipt x _ (by simp) hx).2.2)
      refine ⟨sp, v, hc, hE, ?_⟩
      simp only [VM.modifyEntry, update_of_ne hne]
      exact ⟨hval, hvp, hpp, hro⟩
    tlb_inj := h.tlb_inj }

theorem Acquired.framesUpTo {zero : Bool} {s s' : VM c} {f : Fin c.NumPhysPages}
    (h : Acquired zero s f s') (hF : FramesUpTo A none s)
    (hsolo : (∀ f : Fin c.NumPhysPages, s.MemBitMap.isSet f = true) →
      ∀ rv, s.IPT (clockVictim s) = some rv → Solo A s rv) : FramesUpTo A (some f) s' := by
  cases h with
  | free f m hfind =>
    obtain ⟨hclear, -, rfl⟩ := BitMap.find_some hfind
    have hnone : s.IPT f = none := by
      by_contra hne
      rw [(hF.bit f (by simp)).2 hne] at hclear
      cases hclear
    exact
      { hF.frameTable.mark f with
        owner := fun r hE hv => by
          obtain ⟨g, q, -, hp, hi, hq⟩ := hF.owner r hE hv
          refine ⟨g, q, ?_, hp, hi, hq⟩
          intro he
          cases he
          simp [hnone] at hi
        tlb := hF.tlb
        tlb_inj := hF.tlb_inj }
  | evicted rv s' hfull hev =>
    cases hev with
    | clean s₁ hsel hd =>
      exact { (hsel.frames hF).takeDown (hsel.IPT ▸ hsel.ipt)
        (hsel.solo (hsolo hfull rv hsel.ipt))
        (fun j hj => by rw [hsel.tlb_physicalPage]; exact ((hsel.tlb_valid j).1 hj).2) (-1) with }
    | dirty s₁ k m file hsel hd hk hfile =>
      exact { (hsel.frames hF).takeDown (hsel.IPT ▸ hsel.ipt)
        (hsel.solo (hsolo hfull rv hsel.ipt))
        (fun j hj => by rw [hsel.tlb_physicalPage]; exact ((hsel.tlb_valid j).1 hj).2)
        ((k : ℕ) : ℤ) with }

/-- Entering an invalid page into the hole closes it. -/
theorem FrameTable.install {s : VM c} {f : Fin c.NumPhysPages} (h : FrameTable (some f) s)
    {r : PTRef} (hE : s.HasEntry r) (hr : (s.pageTable r).valid = false) :
    FrameTable none (install r f s) where
  bit g _ := by
    by_cases hg : g = f
    · subst hg
      simpa using h.bit_hole g rfl
    · simp only [Nachos.install, VM.modifyEntry, update_of_ne hg]
      exact h.bit g (by simpa using Ne.symm hg)
  bit_hole g hg := by cases hg
  ipt g q _ hi := by
    by_cases hg : g = f
    · subst hg
      simp only [Nachos.install, update_self, Option.some.injEq] at hi
      subst hi
      exact ⟨hE, by simp, by simp⟩
    · simp only [Nachos.install, VM.modifyEntry, update_of_ne hg] at hi ⊢
      obtain ⟨hE', hv, hp⟩ := h.ipt g q (by simpa using Ne.symm hg) hi
      have hne : q ≠ r := by
        rintro rfl
        simp [hr] at hv
      rw [update_of_ne hne]
      exact ⟨hE', hv, hp⟩
  vpage q hE' := by
    by_cases hq : q = r
    · subst hq
      simpa using h.vpage q hE'
    · simp only [Nachos.install, VM.modifyEntry, update_of_ne hq]
      exact h.vpage q hE'
  writable q hE' := by
    by_cases hq : q = r
    · subst hq
      simpa using h.writable q hE'
    · simp only [Nachos.install, VM.modifyEntry, update_of_ne hq]
      exact h.writable q hE'

theorem FramesUpTo.install {s : VM c} {f : Fin c.NumPhysPages} (h : FramesUpTo A (some f) s)
    {r : PTRef} (hE : s.HasEntry r) (hr : (s.pageTable r).valid = false) :
    FramesUpTo A none (install r f s) :=
  { h.frameTable.install hE hr with
    owner := by
      intro q hE' hv
      by_cases hq : q = r
      · subst hq
        exact ⟨f, q, by simp, by simp, by simp,
          A.self q⟩
      · simp only [Nachos.install, VM.modifyEntry, update_of_ne hq] at hv ⊢
        obtain ⟨g, q', hg, hp, hi, hq'⟩ := h.owner q hE' hv
        refine ⟨g, q', by simp, hp, ?_, hq'⟩
        rw [update_of_ne (fun he => hg (by rw [he]))]
        exact hi
    tlb := by
      intro i hv
      obtain ⟨sp, v, hc, hE', hval, hvp, hpp, hro⟩ := h.tlb i hv
      have hne : (⟨sp, v⟩ : PTRef) ≠ r := by
        rintro rfl
        simp [hr] at hval
      refine ⟨sp, v, hc, hE', ?_⟩
      simp only [Nachos.install, VM.modifyEntry, update_of_ne hne]
      exact ⟨hval, hvp, hpp, hro⟩
    tlb_inj := h.tlb_inj }

/-- **A TLB entry is always found for a page in memory** that the TLB does not map yet: the
other entries stay as they are, up to use bits. -/
theorem updateTLB_spec {s : VM c} (h : FramesUpTo A none s) {sp vpn : ℕ} (hc : s.current = some sp)
    (hE : s.HasEntry ⟨sp, vpn⟩) (hv : (s.pageTable ⟨sp, vpn⟩).valid = true)
    (hno : ∀ i, ¬ s.Maps i vpn) :
    ∃ x s₁, updateTLB sp vpn s = .ok (s₁.setTLB x (s₁.pageTable ⟨sp, vpn⟩)) ∧ Refresh s s₁ ∧
      ((s.tlb x).valid = false ∨
        (s₁.pageTable ⟨sp, (s.tlb x).virtualPage.toNat⟩).dirty = (s.tlb x).dirty) ∧
      FramesUpTo A none (s₁.setTLB x (s₁.pageTable ⟨sp, vpn⟩)) := by
  obtain ⟨x, s₁, heq, hr, hd⟩ := getNextSCTLB_spec hc (h.tlb_range hc)
  have h₁ := h.bitsOnly hr.toBitsOnly
  have hE₁ : vpn < (s₁.spaces sp).numPages := (hr.hasEntry ⟨sp, vpn⟩).2 hE
  have hv₁ : (s₁.pageTable ⟨sp, vpn⟩).valid = true := by rw [hr.valid, hv]
  refine ⟨x, s₁, ?_, hr, hd, ?_⟩
  · simp only [updateTLB, heq, bind, Except.bind, useThisTLBIndex]
    rw [if_pos hE₁]
  · exact
      { h₁ with
        tlb := fun i hi => by
          by_cases hix : i = x
          · subst hix
            refine ⟨sp, vpn, hr.current.trans hc, hE₁, hv₁, ?_⟩
            simp only [VM.setTLB, update_self, true_and]
            exact ⟨h₁.vpage _ hE₁, h₁.writable _ hE₁⟩
          · simp only [VM.setTLB, update_of_ne hix] at hi ⊢
            exact h₁.tlb i hi
        tlb_inj := by
          have hnew : ∀ i v, i ≠ x → s₁.Maps i v →
              (s₁.pageTable ⟨sp, vpn⟩).virtualPage ≠ v := by
            intro i v _ hm he
            rw [h₁.vpage ⟨sp, vpn⟩ hE₁] at he
            have : v = vpn := by simpa using he.symm
            exact hno i ((hr.maps i vpn).1 (this ▸ hm))
          intro i j v hi hj
          by_cases hix : i = x <;> by_cases hjx : j = x
          · rw [hix, hjx]
          · simp only [VM.Maps, VM.setTLB, hix, update_self,
              update_of_ne hjx] at hi hj
            exact absurd hi.2 (hnew j v hjx hj)
          · simp only [VM.Maps, VM.setTLB, hjx, update_self,
              update_of_ne hix] at hi hj
            exact absurd hj.2 (hnew i v hix hi)
          · simp only [VM.Maps, VM.setTLB, update_of_ne hix,
              update_of_ne hjx] at hi hj
            exact h₁.tlb_inj i j v hi hj }

end Nachos
