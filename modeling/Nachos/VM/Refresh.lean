import Nachos.VM.Load

/-!
# What the two clocks may change

Both replacement loops move a hand and clear use bits, and the TLB loop copies the dirty bit of
each entry it looks at to the page table.  `Refresh s s'` says that nothing else differs between
`s` and `s'`; every invariant below is insensitive to it.  `BitsOnly s s'` is the part of it that
does not speak about the origin of dirty bits.

* `getNextSCTLB_spec`: the TLB loop ends, and the dirty bit of the entry it gives away is in the
  page table;
* `getNextSCSWAP_spec`: the frame loop ends, at the victim of the clock.
-/

namespace Nachos

open Function Clock

variable {c : Sizes}

/-- `s'` differs from `s` only in hands, use bits, and dirty bits of the page tables. -/
structure BitsOnly (s s' : VM c) : Prop where
  mainMemory : s'.mainMemory = s.mainMemory
  MemBitMap : s'.MemBitMap = s.MemBitMap
  SWAPBitMap : s'.SWAPBitMap = s.SWAPBitMap
  IPT : s'.IPT = s.IPT
  spaces : s'.spaces = s.spaces
  numSpaces : s'.numSpaces = s.numSpaces
  current : s'.current = s.current
  files : s'.files = s.files
  swapFile : s'.swapFile = s.swapFile
  tlb : ∀ i, s'.tlb i = { s.tlb i with use := (s'.tlb i).use }
  entry : ∀ r, s'.pageTable r =
    { s.pageTable r with use := (s'.pageTable r).use, dirty := (s'.pageTable r).dirty }

namespace BitsOnly

theorem refl (s : VM c) : BitsOnly s s where
  mainMemory := rfl
  MemBitMap := rfl
  SWAPBitMap := rfl
  IPT := rfl
  spaces := rfl
  numSpaces := rfl
  current := rfl
  files := rfl
  swapFile := rfl
  tlb _ := rfl
  entry _ := rfl

theorem trans {s s' s'' : VM c} (h : BitsOnly s s') (h' : BitsOnly s' s'') : BitsOnly s s'' where
  mainMemory := h'.mainMemory.trans h.mainMemory
  MemBitMap := h'.MemBitMap.trans h.MemBitMap
  SWAPBitMap := h'.SWAPBitMap.trans h.SWAPBitMap
  IPT := h'.IPT.trans h.IPT
  spaces := h'.spaces.trans h.spaces
  numSpaces := h'.numSpaces.trans h.numSpaces
  current := h'.current.trans h.current
  files := h'.files.trans h.files
  swapFile := h'.swapFile.trans h.swapFile
  tlb i := by rw [h'.tlb i, h.tlb i]
  entry r := by rw [h'.entry r, h.entry r]

/-- Changing the bits of one entry. -/
theorem modifyEntry (s : VM c) (r : PTRef) (use dirty : Bool) :
    BitsOnly s (s.modifyEntry r fun e => { e with use := use, dirty := dirty }) :=
  { refl s with
    entry := fun r' => by
      by_cases hr : r' = r
      · subst hr
        simp
      · simp [update_of_ne hr] }

section Fields

variable {s s' : VM c} (h : BitsOnly s s')
include h

theorem tlb_valid (i) : (s'.tlb i).valid = (s.tlb i).valid := by rw [h.tlb i]
theorem tlb_virtualPage (i) : (s'.tlb i).virtualPage = (s.tlb i).virtualPage := by rw [h.tlb i]
theorem tlb_physicalPage (i) : (s'.tlb i).physicalPage = (s.tlb i).physicalPage := by
  rw [h.tlb i]
theorem tlb_dirty (i) : (s'.tlb i).dirty = (s.tlb i).dirty := by rw [h.tlb i]
theorem tlb_readOnly (i) : (s'.tlb i).readOnly = (s.tlb i).readOnly := by rw [h.tlb i]
theorem valid (r) : (s'.pageTable r).valid = (s.pageTable r).valid := by rw [h.entry r]
theorem virtualPage (r) : (s'.pageTable r).virtualPage = (s.pageTable r).virtualPage := by
  rw [h.entry r]
theorem physicalPage (r) : (s'.pageTable r).physicalPage = (s.pageTable r).physicalPage := by
  rw [h.entry r]
theorem readOnly (r) : (s'.pageTable r).readOnly = (s.pageTable r).readOnly := by rw [h.entry r]

theorem hasEntry (r) : s'.HasEntry r ↔ s.HasEntry r := by
  simp only [VM.HasEntry, h.spaces]

theorem maps (i v) : s'.Maps i v ↔ s.Maps i v := by
  simp only [VM.Maps, h.tlb_valid, h.tlb_virtualPage]

end Fields

end BitsOnly

/-- `s'` differs from `s` in use bits, in hands, and in page-table dirty bits that were copied
from the TLB entry of their page. -/
structure Refresh (s s' : VM c) : Prop extends BitsOnly s s' where
  dirty : ∀ r, (s'.pageTable r).dirty = (s.pageTable r).dirty ∨
    ∃ i, s.current = some r.space ∧ s.Maps i r.vpn ∧
      (s'.pageTable r).dirty = (s.tlb i).dirty

theorem Refresh.refl (s : VM c) : Refresh s s :=
  { BitsOnly.refl s with dirty := fun _ => Or.inl rfl }

theorem Refresh.trans {s s' s'' : VM c} (h : Refresh s s') (h' : Refresh s' s'') :
    Refresh s s'' :=
  { h.toBitsOnly.trans h'.toBitsOnly with
    dirty := fun r => by
      rcases h'.dirty r with hd | ⟨i, hc, hm, hd⟩
      · rcases h.dirty r with hd' | ⟨i, hc, hm, hd'⟩
        · exact Or.inl (hd.trans hd')
        · exact Or.inr ⟨i, hc, hm, hd.trans hd'⟩
      · exact Or.inr ⟨i, h.current ▸ hc, (h.maps i _).1 hm, by rw [hd, h.tlb_dirty]⟩ }

/-! ### The TLB loop -/

/-- Every TLB entry is valid and names a page of the current space. -/
def TLBFull (sp : ℕ) (s : VM c) : Prop :=
  s.current = some sp ∧ ∀ i, (s.tlb i).valid = true ∧ 0 ≤ (s.tlb i).virtualPage ∧
    (s.tlb i).virtualPage < (s.spaces sp).numPages

theorem TLBFull.refresh {sp : ℕ} {s s' : VM c} (hf : TLBFull sp s) (h : Refresh s s') :
    TLBFull sp s' := by
  refine ⟨h.current.trans hf.1, fun i => ?_⟩
  rw [h.tlb_valid, h.tlb_virtualPage, h.spaces]
  exact hf.2 i

/-- One turn on entry `x`: its use bit becomes `u`, and the page table gets its bits. -/
def turnTLB (sp : ℕ) (x : Fin c.TLBSize) (u oldUse : Bool) (s : VM c) : VM c :=
  { (s.setTLB x { s.tlb x with use := u }).modifyEntry ⟨sp, (s.tlb x).virtualPage.toNat⟩ fun e =>
      { e with use := if oldUse then true else u, dirty := (s.tlb x).dirty } with
    indexTLBSndChc := next x }

/-- The page-table entry of the page in TLB entry `i`. -/
def tlbRef (sp : ℕ) (s : VM c) (i : Fin c.TLBSize) : PTRef := ⟨sp, (s.tlb i).virtualPage.toNat⟩

theorem turnTLB_tlb {sp : ℕ} {s : VM c} (x i : Fin c.TLBSize) (u oldUse : Bool) :
    (turnTLB sp x u oldUse s).tlb i =
      { s.tlb i with use := if i = x then u else (s.tlb i).use } := by
  by_cases hi : i = x
  · subst hi
    simp [turnTLB]
  · simp [turnTLB, hi]

theorem turnTLB_pageTable {sp : ℕ} {s : VM c} (x : Fin c.TLBSize) (u oldUse : Bool) (r : PTRef) :
    (turnTLB sp x u oldUse s).pageTable r =
      if r = tlbRef sp s x then
        { s.pageTable r with use := if oldUse then true else u, dirty := (s.tlb x).dirty }
      else s.pageTable r := by
  by_cases hr : r = tlbRef sp s x
  · rw [if_pos hr, hr]
    simp [turnTLB, tlbRef]
  · rw [if_neg hr]
    exact update_of_ne hr _ _

theorem turnTLB_refresh {sp : ℕ} {s : VM c} (hf : TLBFull sp s) (x : Fin c.TLBSize)
    (u oldUse : Bool) : Refresh s (turnTLB sp x u oldUse s) where
  mainMemory := rfl
  MemBitMap := rfl
  SWAPBitMap := rfl
  IPT := rfl
  spaces := rfl
  numSpaces := rfl
  current := rfl
  files := rfl
  swapFile := rfl
  tlb i := by rw [turnTLB_tlb]
  entry r := by
    rw [turnTLB_pageTable]
    split_ifs <;> rfl
  dirty r := by
    rw [turnTLB_pageTable]
    by_cases hr : r = tlbRef sp s x
    · subst hr
      obtain ⟨hv, h0, -⟩ := hf.2 x
      rw [if_pos rfl]
      exact Or.inr ⟨x, hf.1, ⟨hv, (Int.toNat_of_nonneg h0).symm⟩, rfl⟩
    · rw [if_neg hr]
      exact Or.inl rfl

theorem getNextSCTLBLoop_succ {sp : ℕ} (fuel : ℕ) {s : VM c}
    (h0 : 0 ≤ (s.tlb s.indexTLBSndChc).virtualPage)
    (h1 : (s.tlb s.indexTLBSndChc).virtualPage < (s.spaces sp).numPages) :
    getNextSCTLBLoop sp (fuel + 1) s =
      if (s.tlb s.indexTLBSndChc).use then
        getNextSCTLBLoop sp fuel (turnTLB sp s.indexTLBSndChc false true s)
      else .ok (s.indexTLBSndChc, turnTLB sp s.indexTLBSndChc false false s) := by
  rw [getNextSCTLBLoop]
  split_ifs with hu
  · simp only [saveVictimTLBInfo, VM.setTLB, update_self]
    rw [if_pos ⟨h0, h1⟩]
    rfl
  · -- the bit is clear already, so that writing it changes nothing
    have hself : s.setTLB s.indexTLBSndChc { s.tlb s.indexTLBSndChc with use := false } = s := by
      have : { s.tlb s.indexTLBSndChc with use := false } = s.tlb s.indexTLBSndChc := by
        rw [← eq_false_of_ne_true hu]
      simp only [VM.setTLB, this, update_eq_self]
    simp only [saveVictimTLBInfo, turnTLB, hself]
    rw [if_pos ⟨h0, h1⟩, eq_false_of_ne_true hu]
    rfl

/-- The loop follows the clock over the use bits of the TLB, and it saves the victim's dirty
bit. -/
theorem getNextSCTLBLoop_spec {sp : ℕ} (fuel : ℕ) {s : VM c} (hf : TLBFull sp s)
    {x : Fin c.TLBSize} {uses : Fin c.TLBSize → Bool}
    (h : sweep (fun i => (s.tlb i).use) s.indexTLBSndChc fuel = some (x, uses)) :
    ∃ s', getNextSCTLBLoop sp fuel s = .ok (x, s') ∧ Refresh s s' ∧
      (s'.pageTable ⟨sp, (s.tlb x).virtualPage.toNat⟩).dirty = (s.tlb x).dirty := by
  induction fuel generalizing s with
  | zero => simp [sweep] at h
  | succ fuel ih =>
    obtain ⟨-, h0, h1⟩ := hf.2 s.indexTLBSndChc
    rw [getNextSCTLBLoop_succ fuel h0 h1]
    rw [sweep] at h
    split_ifs at h ⊢ with hu
    · have hr := turnTLB_refresh hf s.indexTLBSndChc false true
      have huse : (fun i => ((turnTLB sp s.indexTLBSndChc false true s).tlb i).use) =
          update (fun i => (s.tlb i).use) s.indexTLBSndChc false := by
        funext i
        rw [turnTLB_tlb, update_apply]
      obtain ⟨s', heq, href, hd⟩ := ih (hf.refresh hr) (by rw [huse]; exact h)
      refine ⟨s', heq, hr.trans href, ?_⟩
      rwa [hr.tlb_virtualPage, hr.tlb_dirty] at hd
    · simp only [Option.some.injEq, Prod.mk.injEq] at h
      obtain ⟨rfl, -⟩ := h
      refine ⟨_, rfl, turnTLB_refresh hf _ _ _, ?_⟩
      change (VM.pageTable _ (tlbRef sp s s.indexTLBSndChc)).dirty = _
      rw [turnTLB_pageTable, if_pos rfl]

/-- **`getNextSCTLB` returns**: an invalid entry when there is one, with nothing changed; else an
entry whose dirty bit is in the page table. -/
theorem getNextSCTLB_spec {sp : ℕ} {s : VM c} (hc : s.current = some sp)
    (hp : ∀ i, (s.tlb i).valid = true → 0 ≤ (s.tlb i).virtualPage ∧
      (s.tlb i).virtualPage < (s.spaces sp).numPages) :
    ∃ x s', getNextSCTLB sp s = .ok (x, s') ∧ Refresh s s' ∧
      ((s.tlb x).valid = false ∨
        (s'.pageTable ⟨sp, (s.tlb x).virtualPage.toNat⟩).dirty = (s.tlb x).dirty) := by
  unfold getNextSCTLB
  cases hfind : (List.finRange c.TLBSize).find? fun x => !(s.tlb x).valid with
  | some x => exact ⟨x, s, rfl, Refresh.refl s, Or.inl (by simpa using List.find?_some hfind)⟩
  | none =>
    have hv : ∀ i, (s.tlb i).valid = true := fun i => by
      simpa using List.find?_eq_none.1 hfind i (List.mem_finRange i)
    obtain ⟨s', heq, href, hd⟩ := getNextSCTLBLoop_spec (c.TLBSize + 1)
      (show TLBFull sp s from ⟨hc, fun i => ⟨hv i, hp i (hv i)⟩⟩) (sweep_eq _ _)
    exact ⟨_, s', heq, href, Or.inr hd⟩

/-! ### The frame loop -/

/-- The use bit of the page in frame `f`. -/
def frameUse (s : VM c) (f : Fin c.NumPhysPages) : Bool :=
  match s.IPT f with
  | some r => (s.pageTable r).use
  | none => false

/-- The frame that the clock selects next. -/
def clockVictim (s : VM c) : Fin c.NumPhysPages :=
  victim (frameUse s) s.indexSWAPSndChc

/-- Every frame holds a valid page, each its own. -/
def IPTFull (s : VM c) : Prop :=
  ∀ f, ∃ r, s.IPT f = some r ∧ (s.pageTable r).valid = true ∧
    ∀ g, s.IPT g = some r → g = f

/-- One turn: the page in frame `x` loses its use bit. -/
@[simp] def turnIPT (x : Fin c.NumPhysPages) (r : PTRef) (s : VM c) : VM c :=
  { s.modifyEntry r fun e => { e with use := false } with indexSWAPSndChc := next x }

theorem turnIPT_refresh (x : Fin c.NumPhysPages) (r : PTRef) (s : VM c) :
    Refresh s (turnIPT x r s) where
  mainMemory := rfl
  MemBitMap := rfl
  SWAPBitMap := rfl
  IPT := rfl
  spaces := rfl
  numSpaces := rfl
  current := rfl
  files := rfl
  swapFile := rfl
  tlb _ := rfl
  entry r' := by
    by_cases hr : r' = r
    · subst hr; simp
    · simp [update_of_ne hr]
  dirty r' := by
    by_cases hr : r' = r
    · subst hr; simp
    · simp [update_of_ne hr]

theorem IPTFull.refresh {s s' : VM c} (hf : IPTFull s) (h : Refresh s s') : IPTFull s' := by
  intro f
  obtain ⟨r, hr, hv, hg⟩ := hf f
  rw [h.IPT]
  exact ⟨r, hr, by rw [h.valid, hv], hg⟩

theorem frameUse_turnIPT {s : VM c} (hf : IPTFull s) {x : Fin c.NumPhysPages} {r : PTRef}
    (hr : s.IPT x = some r) :
    frameUse (turnIPT x r s) = update (frameUse s) x false := by
  funext f
  by_cases hfx : f = x
  · subst hfx
    simp [frameUse, hr]
  · obtain ⟨r', hr', -, -⟩ := hf f
    obtain ⟨q, hq, -, huniq⟩ := hf x
    rw [hr] at hq
    cases hq
    have hne : r' ≠ r := fun h => hfx (huniq f (h ▸ hr'))
    simp [frameUse, hr', update_of_ne hfx,
      update_of_ne hne]

theorem getNextSCSWAPLoop_spec (fuel : ℕ) {s : VM c} (hf : IPTFull s)
    {x : Fin c.NumPhysPages} {uses : Fin c.NumPhysPages → Bool}
    (h : sweep (frameUse s) s.indexSWAPSndChc fuel = some (x, uses)) :
    ∃ s', getNextSCSWAPLoop fuel s = .ok (x, s') ∧ Refresh s s' ∧
      ∀ r, (s'.pageTable r).dirty = (s.pageTable r).dirty := by
  induction fuel generalizing s with
  | zero => simp [sweep] at h
  | succ fuel ih =>
    obtain ⟨r, hr, hv, -⟩ := hf s.indexSWAPSndChc
    rw [sweep] at h
    have huse : frameUse s s.indexSWAPSndChc = (s.pageTable r).use := by simp [frameUse, hr]
    rw [huse] at h
    simp only [getNextSCSWAPLoop, hr, hv, Bool.true_eq_false, if_false]
    split_ifs at h ⊢ with hu
    · have href := turnIPT_refresh s.indexSWAPSndChc r s
      obtain ⟨s', heq, href', hd⟩ := ih (hf.refresh href)
        (by rw [frameUse_turnIPT hf hr]; exact h)
      refine ⟨s', heq, href.trans href', fun r' => (hd r').trans ?_⟩
      by_cases hrr : r' = r
      · subst hrr; simp
      · simp [update_of_ne hrr]
    · simp only [Option.some.injEq, Prod.mk.injEq] at h
      obtain ⟨rfl, -⟩ := h
      exact ⟨_, rfl, { Refresh.refl s with }, fun _ => rfl⟩

/-- **`getNextSCSWAP` returns** when every frame holds a valid page, at the clock's victim; only
use bits and the hand have changed. -/
theorem getNextSCSWAP_spec {s : VM c} (hf : IPTFull s) :
    ∃ s', getNextSCSWAP s = .ok (clockVictim s, s') ∧ Refresh s s' ∧
      ∀ r, (s'.pageTable r).dirty = (s.pageTable r).dirty :=
  getNextSCSWAPLoop_spec _ hf (sweep_eq _ _)

end Nachos
