import Nachos.VM.PageFault
import Nachos.VM.Slots

/-!
# The bytes of the pages

`pageByte s r o` is byte `o` of the page at `r`: in its frame, or else where `load` would read it.
It is `none` for a byte that is nowhere, such as those of a stack page that was never used.

* `Served.byte`: what is in the frame of a page that was fetched;
* `Loaded.waiting`, `Loaded.victim`, `Loaded.survivor`: what `load` does to the entries and bytes
  of the other pages.  It leaves the bytes of every page but one as they are: the clock's victim, if
  the page is taken for a clean one, has the bytes of the executable afterwards, and no others
  (`Loaded.pageByte_victim`);
* `Dirtied.loaded`: `load` loses no dirty bit.
-/

namespace Nachos

open Function

variable {c : Sizes}

/-! ### The dirty bit that counts -/

/-- The dirty bit that counts: that of the TLB entry if there is one, else that of the page
table. -/
def Dirtied (s : VM c) (r : PTRef) : Prop :=
  (∃ i, s.current = some r.space ∧ s.Maps i r.vpn ∧ (s.tlb i).dirty = true) ∨
    ((∀ i, s.current = some r.space → ¬ s.Maps i r.vpn) ∧ (s.pageTable r).dirty = true)
  deriving Decidable

theorem dirtied_of_invalid {A : Alias} {hole : Option (Fin c.NumPhysPages)} {s : VM c}
    (hF : FramesUpTo A hole s) {r : PTRef} (hv : (s.pageTable r).valid = false) :
    Dirtied s r ↔ (s.pageTable r).dirty = true := by
  have hno : ∀ i, s.current = some r.space → ¬ s.Maps i r.vpn := by
    intro i hc hm
    have := (hF.mirror hc hm).2.1
    simp [hv] at this
  constructor
  · rintro (⟨i, hc, hm, -⟩ | ⟨-, hd⟩)
    · exact absurd hm (hno i hc)
    · exact hd
  · exact fun hd => Or.inr ⟨hno, hd⟩

theorem Dirtied.refresh {s s' : VM c} {r : PTRef} (h : Dirtied s r) (hr : Refresh s s') :
    Dirtied s' r := by
  rcases h with ⟨i, hc, hm, hd⟩ | ⟨hno, hd⟩
  · exact Or.inl ⟨i, hr.current.trans hc, (hr.maps i _).2 hm, by rw [hr.tlb_dirty, hd]⟩
  · refine Or.inr ⟨fun i hc hm => hno i (hr.current ▸ hc) ((hr.maps i _).1 hm), ?_⟩
    rcases hr.dirty r with heq | ⟨i, hc, hm, -⟩
    · rw [heq, hd]
    · exact absurd hm (hno i hc)

/-- A TLB entry may be given to another page of the running space once its dirty bit is in the
page table. -/
theorem Dirtied.setTLB {A : Alias} {s : VM c} {r : PTRef} (h : Dirtied s r)
    (hF : FramesUpTo A none s) {sp vpn : ℕ} (hc : s.current = some sp) (hE : s.HasEntry ⟨sp, vpn⟩)
    (hv : (s.pageTable ⟨sp, vpn⟩).valid = true) (hno : ∀ i, ¬ s.Maps i vpn) {x : Fin c.TLBSize}
    (hx : (s.tlb x).valid = false ∨
      (s.pageTable ⟨sp, (s.tlb x).virtualPage.toNat⟩).dirty = (s.tlb x).dirty) :
    Dirtied (s.setTLB x (s.pageTable ⟨sp, vpn⟩)) r := by
  have hself : (s.setTLB x (s.pageTable ⟨sp, vpn⟩)).tlb x = s.pageTable ⟨sp, vpn⟩ := by
    simp
  have hother : ∀ j, j ≠ x → (s.setTLB x (s.pageTable ⟨sp, vpn⟩)).tlb j = s.tlb j := by
    intro j hj
    simp [update_of_ne hj]
  have hvp : (s.pageTable ⟨sp, vpn⟩).virtualPage = vpn := hF.vpage _ hE
  rcases h with ⟨i, hci, hm, hd⟩ | ⟨hnone, hd⟩
  · have hsp : r.space = sp := Option.some.inj (hci.symm.trans hc)
    have hne : r.vpn ≠ vpn := fun he => hno i (he ▸ hm)
    by_cases hix : i = x
    · -- the entry that is given away: the page table has its bit
      subst hix
      have hpage : (⟨sp, (s.tlb i).virtualPage.toNat⟩ : PTRef) = r := by
        rw [hm.2, Int.toNat_natCast, ← hsp]
      rw [hpage, hm.1, hd] at hx
      refine Or.inr ⟨fun j _ hj => ?_, hx.resolve_left (by simp)⟩
      by_cases hji : j = i
      · rw [hji, VM.Maps, hself, hvp] at hj
        exact hne (by have := hj.2; omega)
      · rw [VM.Maps, hother j hji] at hj
        exact hji (hF.tlb_inj j i r.vpn hj hm)
    · refine Or.inl ⟨i, hci, ?_, by rw [hother i hix, hd]⟩
      rw [VM.Maps, hother i hix]
      exact hm
  · by_cases hr : r = ⟨sp, vpn⟩
    · subst hr
      exact Or.inl ⟨x, hc, ⟨by rw [hself, hv], by rw [hself, hvp]⟩, by rw [hself, hd]⟩
    · refine Or.inr ⟨fun j hcj hj => ?_, hd⟩
      by_cases hjx : j = x
      · rw [hjx, VM.Maps, hself, hvp] at hj
        have hsp : r.space = sp := Option.some.inj ((show s.current = _ from hcj).symm.trans hc)
        have hvpn : r.vpn = vpn := by have := hj.2; omega
        exact hr (by rw [← hsp, ← hvpn])
      · rw [VM.Maps, hother j hjx] at hj
        exact hnone j hcj hj

theorem Dirtied.entered {A : Alias} {s s' : VM c} {r : PTRef} (h : Dirtied s r) {sp vpn : ℕ}
    (he : Entered sp vpn s s') (hF : FramesUpTo A none s) (hc : s.current = some sp)
    (hE : s.HasEntry ⟨sp, vpn⟩) (hv : (s.pageTable ⟨sp, vpn⟩).valid = true)
    (hno : ∀ i, ¬ s.Maps i vpn) : Dirtied s' r := by
  cases he with
  | mk x s₁ hr hd =>
    refine (h.refresh hr).setTLB (hF.bitsOnly hr.toBitsOnly) (hr.current.trans hc)
      ((hr.hasEntry _).2 hE) (by rw [hr.valid, hv]) (fun i hm => hno i ((hr.maps i vpn).1 hm)) ?_
    rw [hr.tlb_valid, hr.tlb_virtualPage, hr.tlb_dirty]
    exact hd

variable {f : Fin c.NumPhysPages}

section Evict

variable {A : Alias} {zero : Bool} {s s' : VM c} {x : Fin c.NumPhysPages} {rv : PTRef}

/-- The bit with which the victim leaves is the one that counts. -/
theorem Selected.dirtied (h : Selected s x rv s') (hF : FramesUpTo A none s) (hsolo : Solo A s rv)
    (hd : Dirtied s rv) : (s'.pageTable rv).dirty = true := by
  obtain ⟨hE, hv, hp⟩ := hF.ipt x rv (by simp) h.ipt
  rcases hd with ⟨i, hc, hm, hd⟩ | ⟨hno, hd⟩
  · rw [h.dirty_tlb i hm.1 ((hF.mirror hc hm).2.2.1.trans hp), hd]
  · rw [h.dirty_table, hd]
    intro j hj hjp
    obtain ⟨hc, hm⟩ := hF.maps_of_frame h.ipt hsolo hj hjp
    exact hno j hc hm

/-- The other pages stay as dirty as they were. -/
theorem Evicted.dirtied (h : Evicted zero s x rv s') (hF : FramesUpTo A none s)
    (hsolo : Solo A s rv) {r : PTRef} (hr : r ≠ rv) (hd : Dirtied s r) : Dirtied s' r := by
  have hx := h.ipt
  have key : ∀ s₁ : VM c, Selected s x rv s₁ → ∀ s₂ : VM c, s₂.tlb = s₁.tlb →
      s₂.current = s₁.current → (s₂.pageTable r).dirty = (s₁.pageTable r).dirty →
      Dirtied s₂ r := by
    intro s₁ hsel s₂ htlb hcur hpt
    have hmaps : ∀ i, s₂.Maps i r.vpn ↔ s.Maps i r.vpn ∧ (s.tlb i).physicalPage ≠ (x : ℕ) := by
      intro i
      rw [VM.Maps, htlb]
      exact hsel.maps i r.vpn
    rcases hd with ⟨i, hc, hm, hd⟩ | ⟨hno, hd⟩
    · refine Or.inl ⟨i, by rw [hcur, hsel.current, hc], (hmaps i).2 ⟨hm, fun hp => hr ?_⟩, ?_⟩
      · obtain ⟨hE, hv, hpp, -⟩ := hF.mirror hc hm
        exact hF.eq_of_frame hx hsolo hE hv (hpp.symm.trans hp)
      · rw [htlb, hsel.tlb_dirty, hd]
    · refine Or.inr ⟨fun i hc hm => hno i ?_ ((hmaps i).1 hm).1, by rw [hpt, hsel.other r hr, hd]⟩
      rwa [hcur, hsel.current] at hc
  cases h with
  | clean s₁ hsel hd' | dirty s₁ k m file hsel hd' hk hfile =>
    exact key s₁ hsel _ rfl rfl (by simp [update_of_ne hr])

theorem Evicted.dirtied_victim (h : Evicted zero s x rv s') (hF : FramesUpTo A none s)
    (hsolo : Solo A s rv) (hd : Dirtied s rv) : (s'.pageTable rv).dirty = true := by
  cases h with
  | clean s₁ hsel hd' => simpa using hsel.dirtied hF hsolo hd
  | dirty s₁ k m file hsel hd' hk hfile => simpa using hd'

/-- Memory changes at most in the frame that is taken. -/
theorem Evicted.mainMemory (h : Evicted zero s x rv s') {a : ℕ}
    (ha : a < x * PageSize ∨ x * PageSize + PageSize ≤ a) : s'.mainMemory a = s.mainMemory a := by
  cases h with
  | clean s₁ hsel hd =>
    simp only
    rw [if_neg (by omega), hsel.mainMemory]
  | dirty s₁ k m file hsel hd hk hfile => simp only [VM.modifyEntry, hsel.mainMemory]

/-- Getting a frame loses no dirty bit. -/
theorem Dirtied.acquired {r : PTRef} (h : Dirtied s r) (ha : Acquired zero s f s')
    (hF : FramesUpTo A none s) (hsolo : (∀ f : Fin c.NumPhysPages, s.MemBitMap.isSet f = true) →
      ∀ rv, s.IPT (clockVictim s) = some rv → Solo A s rv) : Dirtied s' r := by
  have hF' := ha.framesUpTo hF hsolo
  cases ha with
  | free f m hfind => exact h
  | evicted rv s' hfull hev =>
    have hrv := hsolo hfull rv hev.ipt
    by_cases hne : r = rv
    · subst hne
      exact (dirtied_of_invalid hF' hev.victim.1).2 (hev.dirtied_victim hF hrv h)
    · exact hev.dirtied hF hrv hne h

end Evict

/-- Nor does entering the page into it. -/
theorem Dirtied.install {vpn sp : ℕ} {space : AddrSpace} {e : TranslationEntry} {zero : Bool}
    {s s' : VM c} {r : PTRef} (h : Dirtied s r) (hf : Filled vpn space e f s zero s') :
    Dirtied (install ⟨sp, vpn⟩ f s') r := by
  have hst := hf.static
  have hd : ((Nachos.install ⟨sp, vpn⟩ f s').pageTable r).dirty = (s.pageTable r).dirty := by
    by_cases hne : r = ⟨sp, vpn⟩
    · subst hne
      simp [hst.2.2.2.2.2.1]
    · simp [update_of_ne hne, hst.2.2.2.2.2.1]
  have hcur : (Nachos.install ⟨sp, vpn⟩ f s').current = s.current := hst.2.2.1
  have htlb : (Nachos.install ⟨sp, vpn⟩ f s').tlb = s.tlb := hst.2.2.2.2.2.2.1
  simp only [Dirtied, VM.Maps, hd, hcur, htlb]
  exact h

theorem Dirtied.touch {s : VM c} {r : PTRef} (h : Dirtied s r) (i : Fin c.TLBSize)
    (writing : Bool) : Dirtied (s.touch i writing) r := by
  have hmaps : ∀ j, (s.touch i writing).Maps j r.vpn ↔ s.Maps j r.vpn := by
    intro j
    by_cases hji : j = i
    · subst hji
      simp only [VM.Maps, VM.touch, VM.setTLB, update_self]
    · simp only [VM.Maps, VM.touch, VM.setTLB, update_of_ne hji]
  rcases h with ⟨j, hc, hm, hd⟩ | ⟨hno, hd⟩
  · refine Or.inl ⟨j, hc, (hmaps j).2 hm, ?_⟩
    by_cases hji : j = i
    · subst hji
      simp [VM.touch, hd]
    · simpa only [VM.touch, VM.setTLB, update_of_ne hji] using hd
  · exact Or.inr ⟨fun j hc hm => hno j hc ((hmaps j).1 hm), hd⟩

/-! ### Where `load` finds the bytes of a page -/

/-- Byte `o` of the page in the executable, if `load` reads the page from there. -/
def imageByte (s : VM c) (r : PTRef) (o : ℕ) : Option Byte :=
  if r.vpn < (s.spaces r.space).initData ∨ r.vpn < (s.spaces r.space).noInitData then
    (s.files (s.spaces r.space).filename).bind fun executable =>
      executable.get? (executable.noffHeader.code.inFileAddr + PageSize * r.vpn + o)
  else none

/-- Byte `o` of a slot of the swap file. -/
def slotByte (s : VM c) (k o : ℕ) : Option Byte :=
  s.swapFile.bind fun file => file.get? (k * PageSize + o)

/-- Byte `o` of a page that is not in memory, where `load` would read it. -/
def sourceByte (s : VM c) (r : PTRef) (o : ℕ) : Option Byte :=
  if (s.pageTable r).dirty then
    if 0 ≤ (s.pageTable r).physicalPage then slotByte s (s.pageTable r).physicalPage.toNat o
    else none
  else imageByte s r o

/-- The byte that the page will have where there is none to read: a blank page in the frame of a
clean victim is cleared, else the frame has what it had. -/
def restByte (s : VM c) (r : PTRef) (o : ℕ) : Byte :=
  if (s.pageTable r).dirty = false ∧ (s.spaces r.space).initData ≤ r.vpn ∧
      (s.spaces r.space).noInitData ≤ r.vpn ∧ CleanVictim s then 0
  else s.mainMemory (takenFrame s * PageSize + o)

/-- The slot at `r` is not the one that `load` will fill first. -/
def SlotLeft (s : VM c) (r : PTRef) : Prop :=
  (s.pageTable r).dirty = true → ∀ k : Fin c.SWAPSize, (s.pageTable r).physicalPage = (k : ℕ) →
    takenSlot s ≠ some k
  deriving Decidable

/-- Bytes outside the slot that is filled: only past the end of the file there may be a new one. -/
theorem get?_writeAt_other (file : File) (mem : ℕ → Byte) (source : ℕ) {j k o : ℕ} (h : k ≠ j)
    (ho : o < PageSize) :
    (file.writeAt mem source PageSize (j * PageSize)).get? (k * PageSize + o) =
        file.get? (k * PageSize + o) ∨
      file.get? (k * PageSize + o) = none ∧
        (file.writeAt mem source PageSize (j * PageSize)).get? (k * PageSize + o) = some 0 := by
  have hout := page_disjoint h ho
  cases hget : file.get? (k * PageSize + o) with
  | some b => exact Or.inl (File.get?_writeAt_outside _ _ hout hget)
  | none =>
    have hlen : ¬ k * PageSize + o < file.length := fun h => by simp [File.get?, h] at hget
    unfold File.get?
    split_ifs with hlt
    · refine Or.inr ⟨rfl, ?_⟩
      simp only [File.writeAt]
      rw [if_neg (by omega), if_neg hlen]
    · exact Or.inl rfl

/-- **A page that is fetched, byte by byte.**  When the victim is written behind the end of the swap
file, a missing byte of a swapped page is a zero. -/
theorem Served.byte {sp vpn : ℕ} {s s' : VM c} (h : Served sp vpn s s')
    (hv : (s.pageTable ⟨sp, vpn⟩).valid = false) (hslot : SlotLeft s ⟨sp, vpn⟩) :
    (s'.pageTable ⟨sp, vpn⟩).valid = true ∧
    (s'.pageTable ⟨sp, vpn⟩).physicalPage = (takenFrame s : ℕ) ∧
    ∀ o < PageSize,
      s'.mainMemory (takenFrame s * PageSize + o) =
        (sourceByte s ⟨sp, vpn⟩ o).getD (restByte s ⟨sp, vpn⟩ o) ∨
      (s.pageTable ⟨sp, vpn⟩).dirty = true ∧ sourceByte s ⟨sp, vpn⟩ o = none ∧
        s'.mainMemory (takenFrame s * PageSize + o) = 0 := by
  cases h with
  | resident s' hv' he =>
    rw [hv] at hv'
    cases hv'
  | fetched zero f s₁ s₂ s' hv' hfiles ht hf he =>
    obtain ⟨hmem, hent⟩ := he.same
    have hpt : ((install ⟨sp, vpn⟩ f s₂).pageTable ⟨sp, vpn⟩).valid = true ∧
        ((install ⟨sp, vpn⟩ f s₂).pageTable ⟨sp, vpn⟩).physicalPage = (f : ℕ) := by
      simp
    rw [← ht.frame]
    refine ⟨(hent _).1.trans hpt.1, (hent _).2.trans hpt.2, fun o ho => ?_⟩
    have hs' : s'.mainMemory (f * PageSize + o) = s₂.mainMemory (f * PageSize + o) :=
      congrFun hmem _
    rw [hs']
    unfold sourceByte restByte imageByte
    simp only [← ht.frame]
    cases hf with
    | file executable hd hfile hvp =>
      rw [hfiles] at hfile
      refine Or.inl ?_
      rw [hd, if_neg (by simp), if_pos hvp.symm, hfile, Option.bind_some,
        if_neg fun h => by omega]
      simp only [readExecutable]
      rw [File.readAt_of_lt _ _ ho, ht.kept (by simp)]
    | blank hd hvp =>
      refine Or.inl ?_
      rw [hd, if_neg (by simp), if_neg (by omega), Option.getD_none]
      split_ifs with hclean
      · exact ht.cleared rfl hclean.2.2.2 o ho
      · rw [ht.kept fun h => hclean ⟨rfl, hvp.1, hvp.2, h.2⟩]
    | swap k file hd hk hfile =>
      rw [hd, if_pos rfl, hk, if_pos (by omega), Int.toNat_natCast, if_neg (by simp)]
      simp only
      rw [File.readAt_of_lt _ _ ho, ht.kept (by simp)]
      rw [ht.swapFile] at hfile
      unfold slotByte
      cases hold : takenSlot s with
      | none =>
        rw [hold] at hfile
        rw [show s.swapFile = some file from hfile]
        exact Or.inl rfl
      | some j =>
        -- the victim goes to another slot
        rw [hold] at hfile
        obtain ⟨old, hfile₀, rfl⟩ := Option.map_eq_some_iff.1 hfile
        have hkj : (k : ℕ) ≠ j := fun he => hslot hd k hk (by rw [hold, Fin.ext he])
        rw [hfile₀, Option.bind_some]
        rcases get?_writeAt_other old s.mainMemory (f * PageSize) hkj ho with
          heq | ⟨hnone, hzero⟩
        · exact Or.inl (by rw [heq])
        · exact Or.inr ⟨trivial, hnone, by rw [hzero]; rfl⟩

/-! ### In memory or not -/

variable {A : Alias} {sp vpn o : ℕ} {s s' : VM c} {r : PTRef}

/-- Byte `o` of the page, in memory or not. -/
def pageByte (s : VM c) (r : PTRef) (o : ℕ) : Option Byte :=
  if (s.pageTable r).valid then
    some (s.mainMemory ((s.pageTable r).physicalPage.toNat * PageSize + o))
  else sourceByte s r o

theorem pageByte_valid (hv : (s.pageTable r).valid = true)
    (hp : (s.pageTable r).physicalPage = (f : ℕ)) (o : ℕ) :
    pageByte s r o = some (s.mainMemory (f * PageSize + o)) := by
  rw [pageByte, hv, if_pos rfl, hp, Int.toNat_natCast]

theorem pageByte_invalid (hv : (s.pageTable r).valid = false) (o : ℕ) :
    pageByte s r o = sourceByte s r o := by
  rw [pageByte, hv, if_neg (by simp)]

theorem imageByte_congr (hsp : s'.spaces = s.spaces) (hfi : s'.files = s.files) (r : PTRef)
    (o : ℕ) : imageByte s' r o = imageByte s r o := by
  simp only [imageByte, hsp, hfi]

/-! ### What `load` does to tables and swap file -/

/-- The bit with which the victim leaves. -/
theorem Selected.frameDirty {x : Fin c.NumPhysPages} (h : Selected s x r s') :
    (s'.pageTable r).dirty = Nachos.frameDirty s x r := by
  unfold Nachos.frameDirty
  cases hfind : (List.finRange c.TLBSize).find? fun i =>
      (s.tlb i).valid && (s.tlb i).physicalPage == ((x : ℕ) : ℤ) with
  | none =>
    refine h.dirty_table fun j hj hp => ?_
    have := List.find?_eq_none.1 hfind j (List.mem_finRange j)
    simp [hj, hp] at this
  | some i =>
    have := List.find?_some hfind
    simp only [Bool.and_eq_true, beq_iff_eq] at this
    exact h.dirty_tlb i this.1 this.2

theorem Selected.not_cleanVictim (h : Selected s (clockVictim s) r s')
    (hd : (s'.pageTable r).dirty = true) : ¬ CleanVictim s := by
  rintro ⟨-, rv, hI, hno⟩
  rw [h.ipt] at hI
  cases hI
  rw [← h.frameDirty, hd] at hno
  cases hno

/-- Where the victim goes. -/
theorem Evicted.slot {zero : Bool} (h : Evicted zero s (clockVictim s) r s')
    (hfull : ∀ f : Fin c.NumPhysPages, s.MemBitMap.isSet f = true) :
    (s'.pageTable r).dirty = Nachos.frameDirty s (clockVictim s) r ∧
    ((s'.pageTable r).dirty = false → (s'.pageTable r).physicalPage = -1) ∧
    ((s'.pageTable r).dirty = true → ∃ (k : Fin c.SWAPSize) (file : File),
      takenSlot s = some k ∧ (s'.pageTable r).physicalPage = (k : ℕ) ∧
      s'.swapFile = some (file.writeAt s.mainMemory (clockVictim s * PageSize) PageSize
        (k * PageSize))) := by
  cases h with
  | clean s₁ hsel hd =>
    refine ⟨by simpa using hsel.frameDirty, fun _ => by simp,
      fun hdirty => ?_⟩
    simp [hd] at hdirty
  | dirty s₁ k m file hsel hd hk hfile =>
    refine ⟨by simpa using hsel.frameDirty, fun hclean => ?_,
      fun _ => ⟨k, file, ?_, ?_, ?_⟩⟩
    · simp [hd] at hclean
    · rw [takenSlot, if_pos ⟨hfull, hsel.not_cleanVictim hd⟩, ← hsel.SWAPBitMap, hk]
    · simp
    · rw [hsel.mainMemory]

theorem Acquired.taken {zero : Bool} (h : Acquired zero s f s') : Taken zero s f s' := by
  cases h with
  | free f m hfind => exact .free hfind
  | evicted rv s' hfull hev =>
    cases hev with
    | clean s₁ hsel hd =>
      refine .clean ⟨hfull, rv, hsel.ipt, by rw [← hsel.frameDirty, hd]⟩ (fun a => ?_) hsel.swapFile
      rw [← hsel.mainMemory]
    | dirty s₁ k m file hsel hd hk hfile =>
      have hc := hsel.not_cleanVictim hd
      rw [hsel.SWAPBitMap] at hk
      rw [hsel.swapFile] at hfile
      exact .dirty hfull hc hk hfile hsel.mainMemory (by simp only [hsel.mainMemory])

theorem Loaded.served (h : Loaded sp vpn s s') : Served sp vpn s s' := by
  cases h with
  | resident s' hv he => exact .resident s' hv he
  | fetched n zero f s₁ s₂ s' hv ha hf he =>
    exact .fetched zero f s₁ s₂ s' hv ha.static.2.2.2.1 { ha.taken with } hf he

/-- The swap file: at most the victim's slot is filled. -/
theorem Served.slotByte (h : Served sp vpn s s') {k : ℕ}
    (hk : (s.pageTable ⟨sp, vpn⟩).valid = false → ∀ j, takenSlot s = some j → k ≠ j)
    (ho : o < PageSize) :
    slotByte s' k o = slotByte s k o ∨ slotByte s k o = none ∧ slotByte s' k o = some 0 := by
  have hent : ∀ s₀ : VM c, Entered sp vpn s₀ s' → s'.swapFile = s₀.swapFile := by
    intro s₀ he
    cases he with
    | mk x s₁ hr hd => exact hr.swapFile
  cases h with
  | resident s' hv he =>
    unfold Nachos.slotByte
    rw [hent s he]
    exact Or.inl rfl
  | fetched zero f s₁ s₂ s' hv hfiles ht hf he =>
    have hswap : s'.swapFile = s₁.swapFile := by
      rw [hent _ he]
      cases hf <;> rfl
    unfold Nachos.slotByte
    rw [hswap, ht.swapFile]
    cases hslot : takenSlot s with
    | none => exact Or.inl rfl
    | some j =>
      cases hfile : s.swapFile with
      | none => exact Or.inl rfl
      | some file => exact get?_writeAt_other file _ _ (hk hv j hslot) ho

/-- The TLB stage leaves the bits of pages that are not in memory. -/
theorem Entered.dirty_invalid (h : Entered sp vpn s s') (hF : FramesUpTo A none s)
    (hv : (s.pageTable r).valid = false) : (s'.pageTable r).dirty = (s.pageTable r).dirty := by
  cases h with
  | mk x s₁ hr hd =>
    refine (hr.dirty r).resolve_right ?_
    rintro ⟨i, hc, hm, -⟩
    have := (hF.mirror hc hm).2.1
    simp [hv] at this

/-- A page that was fetched from the swap file had a slot. -/
theorem Loaded.slot (h : Loaded sp vpn s s') (hv : (s.pageTable ⟨sp, vpn⟩).valid = false)
    (hd : (s.pageTable ⟨sp, vpn⟩).dirty = true) :
    ∃ k : Fin c.SWAPSize, (s.pageTable ⟨sp, vpn⟩).physicalPage = (k : ℕ) := by
  cases h with
  | resident s' hv' he => simp [hv] at hv'
  | fetched n zero f s₁ s₂ s' _ ha hf he =>
    cases hf with
    | file executable hclean _ _ => simp [hd] at hclean
    | blank hclean _ => simp [hd] at hclean
    | swap k file _ hk _ => exact ⟨k, hk⟩

section Tables

variable (h : Loaded sp vpn s s') (hF : FramesUpTo A none s)
  (hsolo : SoloVictim A s ⟨sp, vpn⟩) (hE : s.HasEntry ⟨sp, vpn⟩)
include h hF hsolo hE

/-- The entry of another page that is not in memory stays as it is. -/
theorem Loaded.waiting (hv : (s.pageTable r).valid = false) (hr : r ≠ ⟨sp, vpn⟩) :
    (s'.pageTable r).valid = false ∧ (s'.pageTable r).dirty = (s.pageTable r).dirty ∧
      (s'.pageTable r).physicalPage = (s.pageTable r).physicalPage := by
  cases h with
  | resident s' hval he =>
    exact ⟨(he.same.2 r).1.trans hv, he.dirty_invalid hF hv, (he.same.2 r).2⟩
  | fetched n zero f s₁ s₂ s' hval ha hf he =>
    have hn : FramesUpTo A none { s with numPageFaults := n } := { hF with }
    have hinst : (install ⟨sp, vpn⟩ f s₂).pageTable r =
        { s.pageTable r with use := (s₁.pageTable r).use } := by
      rw [← ha.entry hn hv]
      simp [update_of_ne hr, hf.static.2.2.2.2.2.1]
    have hv' : ((install ⟨sp, vpn⟩ f s₂).pageTable r).valid = false := by rw [hinst, hv]
    rw [(he.same.2 r).1, (he.same.2 r).2, he.dirty_invalid (hf.install_frames ha hF hsolo hE hval)
      hv', hinst]
    exact ⟨hv, rfl, rfl⟩

omit hF hsolo hE in
theorem Loaded.valid : (s'.pageTable ⟨sp, vpn⟩).valid = true := by
  cases h with
  | resident s' hval he => exact (he.same.2 _).1.trans hval
  | fetched n zero f s₁ s₂ s' hval ha hf he =>
    rw [(he.same.2 _).1]
    simp

/-- A page that loses its frame is the clock's victim.  It is taken for a clean page, or goes to the
slot that is filled. -/
theorem Loaded.victim (hv : (s.pageTable r).valid = true) (hv' : (s'.pageTable r).valid = false) :
    (s.pageTable ⟨sp, vpn⟩).valid = false ∧
    (∀ f : Fin c.NumPhysPages, s.MemBitMap.isSet f = true) ∧ s.IPT (clockVictim s) = some r ∧
    (s'.pageTable r).dirty = frameDirty s (clockVictim s) r ∧
    ((s'.pageTable r).dirty = false → (s'.pageTable r).physicalPage = -1) ∧
    ((s'.pageTable r).dirty = true → ∃ (k : Fin c.SWAPSize) (file : File),
      takenSlot s = some k ∧ (s'.pageTable r).physicalPage = (k : ℕ) ∧
      s'.swapFile = some (file.writeAt s.mainMemory (clockVictim s * PageSize) PageSize
        (k * PageSize))) := by
  cases h with
  | resident s' hval he =>
    rw [(he.same.2 r).1, hv] at hv'
    cases hv'
  | fetched n zero f s₁ s₂ s' hval ha hf he =>
    have hne : r ≠ ⟨sp, vpn⟩ := by
      rintro rfl
      rw [hv] at hval
      cases hval
    have hinst : (install ⟨sp, vpn⟩ f s₂).pageTable r = s₁.pageTable r := by
      simp [update_of_ne hne, hf.static.2.2.2.2.2.1]
    rw [(he.same.2 r).1, hinst] at hv'
    have hd := he.dirty_invalid (hf.install_frames ha hF hsolo hE hval) (by rw [hinst, hv'])
    rw [hinst] at hd
    rw [hd, (he.same.2 r).2, hinst]
    have hswap : s'.swapFile = s₁.swapFile := by
      cases he with
      | mk x s₃ hr _ =>
        refine hr.swapFile.trans ?_
        cases hf <;> rfl
    rw [hswap]
    cases ha with
    | free f m hfind =>
      rw [show _ = true from hv] at hv'
      cases hv'
    | evicted rv s₁ hfull hev =>
      have hr : r = rv := by
        by_contra hr
        rw [hev.entry hr, show _ = true from hv] at hv'
        cases hv'
      subst hr
      exact ⟨hval, hfull, hev.ipt, hev.slot hfull⟩

omit hE in
/-- A page that is in memory after `load`, and was not loaded by it, is where it was. -/
theorem Loaded.survivor (hEr : s.HasEntry r) (hv' : (s'.pageTable r).valid = true)
    (hr : (s.pageTable ⟨sp, vpn⟩).valid = true ∨ r ≠ ⟨sp, vpn⟩) :
    (s.pageTable r).valid = true ∧
    (s'.pageTable r).physicalPage = (s.pageTable r).physicalPage ∧
    ∀ f : Fin c.NumPhysPages, (s.pageTable r).physicalPage = (f : ℕ) → ∀ o < PageSize,
      s'.mainMemory (f * PageSize + o) = s.mainMemory (f * PageSize + o) := by
  cases h with
  | resident s' hval he =>
    obtain ⟨hmem, hent⟩ := he.same
    exact ⟨(hent r).1.symm.trans hv', (hent r).2, fun f _ o _ => by rw [hmem]⟩
  | fetched n zero f s₁ s₂ s' hval ha hf he =>
    have hne : r ≠ ⟨sp, vpn⟩ := hr.resolve_left (by simp [hval])
    have hn : FramesUpTo A none { s with numPageFaults := n } := { hF with }
    have hF₁ := ha.framesUpTo hn (hsolo hval)
    obtain ⟨hmem, hent⟩ := he.same
    have hinst : (install ⟨sp, vpn⟩ f s₂).pageTable r = s₁.pageTable r := by
      simp [update_of_ne hne, hf.static.2.2.2.2.2.1]
    rw [(hent r).1, hinst] at hv'
    rw [(hent r).2, hinst, hmem]
    have hE₁ : s₁.HasEntry r := by simpa only [VM.HasEntry, ha.static.1] using hEr
    -- the frame of `r` is not the one that was taken
    obtain ⟨g, -, hg, hpg, -, -⟩ := hF₁.owner r hE₁ hv'
    have hmem₂ : ∀ f' : Fin c.NumPhysPages, (s₁.pageTable r).physicalPage = (f' : ℕ) →
        ∀ o < PageSize, s₂.mainMemory (f' * PageSize + o) = s.mainMemory (f' * PageSize + o) := by
      intro f' hf' o ho
      have hff : (f' : ℕ) ≠ f := by
        intro he
        exact hg (by rw [Fin.ext (show (f : ℕ) = g by omega)])
      rw [hf.mainMemory (page_disjoint hff ho)]
      cases ha with
      | free f m hfind => rfl
      | evicted rv s₁ hfull hev => exact hev.mainMemory (page_disjoint hff ho)
    have hsame : (s.pageTable r).valid = true ∧
        (s₁.pageTable r).physicalPage = (s.pageTable r).physicalPage := by
      cases ha with
      | free f m hfind => exact ⟨hv', rfl⟩
      | evicted rv s₁ hfull hev =>
        have hrv : r ≠ rv := by
          rintro rfl
          rw [hev.victim.1] at hv'
          cases hv'
        rw [hev.entry hrv] at hv'
        exact ⟨hv', by rw [hev.entry hrv]⟩
    exact ⟨hsame.1, hsame.2, fun f' hf' => hmem₂ f' (hsame.2.trans hf')⟩

/-! ### What `load` does to the bytes -/

omit hE in
/-- A page in memory keeps its bytes. -/
theorem Loaded.pageByte_survivor (hEr : s.HasEntry r) (hv' : (s'.pageTable r).valid = true)
    (hr : (s.pageTable ⟨sp, vpn⟩).valid = true ∨ r ≠ ⟨sp, vpn⟩) (ho : o < PageSize) :
    pageByte s' r o = pageByte s r o := by
  obtain ⟨hv, hp, hmem⟩ := h.survivor hF hsolo hEr hv' hr
  obtain ⟨f, -, -, hf, -⟩ := hF.owner r hEr hv
  rw [pageByte_valid hv' (hp.trans hf), pageByte_valid hv hf, hmem f hf o ho]

/-- The victim keeps its bytes if it is taken for a dirty page; else it has those of the
executable. -/
theorem Loaded.pageByte_victim (hv : (s.pageTable r).valid = true)
    (hv' : (s'.pageTable r).valid = false) (ho : o < PageSize) :
    pageByte s' r o =
      if frameDirty s (clockVictim s) r then pageByte s r o else imageByte s r o := by
  obtain ⟨-, -, hI, hd, -, hslot⟩ := h.victim hF hsolo hE hv hv'
  obtain ⟨-, -, hp⟩ := hF.ipt _ r (by simp) hI
  rw [pageByte_invalid hv', sourceByte, ← hd]
  split_ifs with hdirty hpos
  · obtain ⟨k, file, -, hk, hfile⟩ := hslot hdirty
    rw [pageByte_valid hv hp, hk, slotByte, hfile, Int.toNat_natCast]
    exact File.get?_writeAt_of_lt file s.mainMemory ho
  · obtain ⟨k, file, -, hk, -⟩ := hslot hdirty
    omega
  · exact imageByte_congr h.sameSpaces.spaces h.sameSpaces.files r o

/-- Another page that is not in memory keeps its bytes, unless its slot is filled. -/
theorem Loaded.pageByte_waiting (hv : (s.pageTable r).valid = false) (hr : r ≠ ⟨sp, vpn⟩)
    (hslot : (s.pageTable ⟨sp, vpn⟩).valid = false → SlotLeft s r) (ho : o < PageSize) :
    pageByte s' r o = pageByte s r o ∨ pageByte s r o = none ∧ pageByte s' r o = some 0 := by
  obtain ⟨hv', hd, hp⟩ := h.waiting hF hsolo hE hv hr
  rw [pageByte_invalid hv', pageByte_invalid hv, sourceByte, sourceByte, hd, hp]
  split_ifs with hdirty hpos
  · refine h.served.slotByte (fun hval j hj hk => hslot hval hdirty j ?_ hj) ho
    omega
  · exact Or.inl rfl
  · exact Or.inl (imageByte_congr h.sameSpaces.spaces h.sameSpaces.files r o)

omit hF hsolo hE in
/-- The page that is loaded has the bytes of its source. -/
theorem Loaded.pageByte_loaded (hv : (s.pageTable ⟨sp, vpn⟩).valid = false)
    (hslot : SlotLeft s ⟨sp, vpn⟩) (ho : o < PageSize) :
    pageByte s' ⟨sp, vpn⟩ o =
        some ((pageByte s ⟨sp, vpn⟩ o).getD (restByte s ⟨sp, vpn⟩ o)) ∨
      pageByte s ⟨sp, vpn⟩ o = none ∧ pageByte s' ⟨sp, vpn⟩ o = some 0 := by
  obtain ⟨hv', hp, hbyte⟩ := h.served.byte hv hslot
  rw [pageByte_valid hv' hp, pageByte_invalid hv]
  rcases hbyte o ho with heq | ⟨-, hnone, hzero⟩
  · exact Or.inl (by rw [heq])
  · exact Or.inr ⟨hnone, by rw [hzero]⟩

/-- `load` loses no dirty bit. -/
theorem Dirtied.loaded (hd : Dirtied s r) (hc : s.current = some sp) (hno : ∀ i, ¬ s.Maps i vpn) :
    Dirtied s' r := by
  cases h with
  | resident s' hv he => exact hd.entered he hF hc hE hv hno
  | fetched n zero f s₁ s₂ s' hv ha hf he =>
    have hn : FramesUpTo A none { s with numPageFaults := n } := { hF with }
    have hd₀ : Dirtied { s with numPageFaults := n } r := hd
    have hst := ha.static
    refine ((hd₀.acquired ha hn (hsolo hv)).install hf).entered he
      (hf.install_frames ha hF hsolo hE hv) ?_ ?_ ?_ ?_
    · exact hf.static.2.2.1.trans (hst.2.2.1.trans hc)
    · simpa only [VM.HasEntry, Nachos.install, VM.modifyEntry, hf.static.1, hst.1] using hE
    · simp
    · intro i hm
      refine hno i (ha.maps i vpn ?_)
      simpa only [VM.Maps, Nachos.install, VM.modifyEntry, hf.static.2.2.2.2.2.2.1] using hm

end Tables

/-! ### Accesses that lose no byte -/

/-- `load` of the page at `q` drops no byte of the page at `r`: if that is the clock's victim, it is
taken for a dirty page, or has the bytes of the executable. -/
def Spares (s : VM c) (q r : PTRef) : Prop :=
  (s.pageTable q).valid = false → (∀ f : Fin c.NumPhysPages, s.MemBitMap.isSet f = true) →
    s.IPT (clockVictim s) = some r → frameDirty s (clockVictim s) r = true ∨
      ∀ o < PageSize, imageByte s r o = some (s.mainMemory (clockVictim s * PageSize + o))

instance (s : VM c) (q r : PTRef) : Decidable (Spares s q r) := by
  unfold Spares; infer_instance

/-- The page at `r` has the bytes of `spec`. -/
def HasBytes (spec : PTRef → ℕ → Option Byte) (s : VM c) (r : PTRef) : Prop :=
  ∀ o b, s.HasEntry r → o < PageSize → spec r o = some b → pageByte s r o = some b

/-- A victim goes to a slot that no page has. -/
theorem Slots.ne_takenSlot (h : Slots s) (hE : s.HasEntry r) (hv : (s.pageTable r).valid = false)
    {k : Fin c.SWAPSize} (hk : (s.pageTable r).physicalPage = (k : ℕ)) : takenSlot s ≠ some k := by
  intro htaken
  unfold takenSlot at htaken
  split_ifs at htaken
  rcases h.slot r hE hv with hp | ⟨j, hj, hset⟩
  · omega
  · rw [Fin.ext (show (j : ℕ) = k by omega), (BitMap.find_some (Prod.ext htaken rfl)).1] at hset
    cases hset

theorem Slots.slotLeft (h : Slots s) (hE : s.HasEntry r) (hv : (s.pageTable r).valid = false) :
    SlotLeft s r := fun _ _ hk => h.ne_takenSlot hE hv hk

section Bytes

variable {spec : PTRef → ℕ → Option Byte} {addr : BitVec 32} {size : ℕ} {w : Option (BitVec 32)}

theorem HasBytes.loaded (h : HasBytes spec s r) (hl : Loaded sp vpn s s') (hF : Frames none s)
    (hs : Slots s) (hE : s.HasEntry ⟨sp, vpn⟩) (hspare : Spares s ⟨sp, vpn⟩ r) :
    HasBytes spec s' r := by
  intro o b hr' ho hb
  have hsolo := soloVictim_none s ⟨sp, vpn⟩
  have hr : s.HasEntry r := (hl.sameSpaces.hasEntry r).1 hr'
  have hold := h o b hr ho hb
  cases hv' : (s'.pageTable r).valid with
  | true =>
    by_cases hstay : (s.pageTable ⟨sp, vpn⟩).valid = true ∨ r ≠ ⟨sp, vpn⟩
    · rw [hl.pageByte_survivor hF hsolo hr hv' hstay ho, hold]
    · obtain ⟨hinv, hne⟩ := not_or.1 hstay
      obtain rfl := not_not.1 hne
      have hv := eq_false_of_ne_true hinv
      rcases hl.pageByte_loaded hv (hs.slotLeft hE hv) ho with heq | ⟨hnone, -⟩
      · rw [heq, hold]
        rfl
      · rw [hold] at hnone
        cases hnone
  | false =>
    cases hv : (s.pageTable r).valid with
    | true =>
      obtain ⟨hinv, hfull, hI, -⟩ := hl.victim hF hsolo hE hv hv'
      rw [hl.pageByte_victim hF hsolo hE hv hv' ho]
      split_ifs with hd
      · exact hold
      · obtain ⟨-, -, hp⟩ := hF.ipt _ r (by simp) hI
        rw [((hspare hinv hfull hI).resolve_left hd) o ho, ← hold, pageByte_valid hv hp]
    | false =>
      have hne : r ≠ ⟨sp, vpn⟩ := by
        rintro rfl
        rw [hl.valid] at hv'
        cases hv'
      rcases hl.pageByte_waiting hF hsolo hE hv hne (fun _ => hs.slotLeft hr hv) ho with
        heq | ⟨hnone, -⟩
      · rw [heq, hold]
      · rw [hold] at hnone
        cases hnone

/-- What a hit leaves in the frames of all pages. -/
theorem Frames.store_byte (hF : Frames none s) (hc : s.current = some sp) {i : Fin c.TLBSize}
    (hm : s.Maps i (pageOf addr)) (hp : (s.pageTable ⟨sp, pageOf addr⟩).physicalPage = (f : ℕ))
    (hsz : offsetOf addr + size ≤ PageSize) (value : BitVec 32) (hE : s.HasEntry r)
    (hv : (s.pageTable r).valid = true) {g : Fin c.NumPhysPages}
    (hg : (s.pageTable r).physicalPage = (g : ℕ)) (ho : o < PageSize) :
    storeBytes s.mainMemory (f * PageSize + offsetOf addr) size value (g * PageSize + o) =
      if r = ⟨sp, pageOf addr⟩ ∧ offsetOf addr ≤ o ∧ o < offsetOf addr + size then
        byteOf value (o - offsetOf addr)
      else s.mainMemory (g * PageSize + o) := by
  obtain ⟨hE', hv', -, -⟩ := hF.mirror hc hm
  obtain ⟨f', -, hf', hI⟩ := hF.owned hE' hv'
  obtain rfl : f = f' := Fin.ext (by omega)
  unfold storeBytes
  by_cases hr : r = ⟨sp, pageOf addr⟩
  · subst hr
    obtain rfl : f = g := Fin.ext (by omega)
    by_cases hin : offsetOf addr ≤ o ∧ o < offsetOf addr + size
    · rw [if_pos (by omega), if_pos ⟨rfl, hin⟩]
      congr 1
      omega
    · rw [if_neg (by omega), if_neg fun h => hin h.2]
  · have hgf : (g : ℕ) ≠ f := fun he => hr (hF.frame_unique hI hE hv (he ▸ hg))
    have hdis := page_disjoint hgf ho
    rw [if_neg (by omega), if_neg fun h => hr h.1]

/-- `spec` after `size` bytes of `value` were written to the page at offset `offset`. -/
def overwrite (spec : PTRef → ℕ → Option Byte) (r : PTRef) (offset size : ℕ) (value : BitVec 32) :
    PTRef → ℕ → Option Byte := fun q o =>
  if q = r ∧ offset ≤ o ∧ o < offset + size then some (byteOf value (o - offset)) else spec q o

/-- The contents that an access leaves. -/
def afterAccess (spec : PTRef → ℕ → Option Byte) (r : PTRef) (offset size : ℕ) :
    Option (BitVec 32) → PTRef → ℕ → Option Byte
  | none => spec
  | some value => overwrite spec r offset size value

/-- The bytes after a hit that left `mem` in memory. -/
theorem pageByte_hit (i : Fin c.TLBSize) (writing : Bool) (mem : ℕ → Byte) (r : PTRef) (o : ℕ) :
    pageByte { s.touch i writing with mainMemory := mem } r o =
      if (s.pageTable r).valid then some (mem ((s.pageTable r).physicalPage.toNat * PageSize + o))
      else sourceByte s r o := rfl

theorem HasBytes.hit (h : HasBytes spec s r) (hF : Frames none s) (w : Option (BitVec 32))
    (hc : s.current = some sp) {i : Fin c.TLBSize} (hm : s.Maps i (pageOf addr))
    (hp : (s.pageTable ⟨sp, pageOf addr⟩).physicalPage = (f : ℕ))
    (hsz : offsetOf addr + size ≤ PageSize) :
    HasBytes (afterAccess spec ⟨sp, pageOf addr⟩ (offsetOf addr) size w)
      { s.touch i w.isSome with
        mainMemory := match w with
          | none => s.mainMemory
          | some value => storeBytes s.mainMemory (f * PageSize + offsetOf addr) size value }
      r := by
  cases w with
  | none => exact h
  | some value =>
    intro o b hr ho hb
    simp only [afterAccess, overwrite] at hb
    refine (pageByte_hit i true _ r o).trans ?_
    cases hrv : (s.pageTable r).valid with
    | true =>
      obtain ⟨g, -, hg, -⟩ := hF.owned hr hrv
      rw [if_pos rfl, hg, Int.toNat_natCast]
      refine (congrArg some (hF.store_byte hc hm hp hsz value hr hrv hg ho)).trans ?_
      split_ifs at hb ⊢
      · exact hb
      · rw [← h o b hr ho hb, pageByte_valid hrv hg]
    | false =>
      have hne : r ≠ ⟨sp, pageOf addr⟩ := by
        rintro rfl
        simp [(hF.mirror hc hm).2.1] at hrv
      rw [if_neg fun h => hne h.1] at hb
      rw [← h o b hr ho hb, pageByte_invalid hrv, if_neg (by simp)]

/-- **An access keeps the bytes of a page**, up to those it writes, if it drops none. -/
theorem HasBytes.accessed (h : HasBytes spec s r) (ha : Accessed sp addr size w s s')
    (hF : Frames none s) (hs : Slots s) (hc : s.current = some sp)
    (hE : s.HasEntry ⟨sp, pageOf addr⟩) (hspare : Spares s ⟨sp, pageOf addr⟩ r) :
    (¬ ∃ i, s.Maps i (pageOf addr)) ∧ HasBytes spec s' r ∨
    (∃ i, s.Maps i (pageOf addr)) ∧
      HasBytes (afterAccess spec ⟨sp, pageOf addr⟩ (offsetOf addr) size w) s' r := by
  cases ha with
  | miss s' hno hl =>
    have h' : HasBytes spec { s with BadVAddrReg := addr } r := h
    exact Or.inl ⟨by simpa using hno, h'.loaded hl { hF with } { hs with } hE hspare⟩
  | hit i f hm hv hp hsz => exact Or.inr ⟨⟨i, hm⟩, h.hit hF w hc hm hp hsz⟩

/-- The tables are in order, and `sp` runs. -/
structure InOrder (sp : ℕ) (s : VM c) : Prop where
  frames : Frames none s
  slots : Slots s
  current : s.current = some sp

theorem Reachable.inOrder (h : Reachable s) (hc : s.current = some sp) : InOrder sp s :=
  ⟨h.frames.1, h.slots, hc⟩

theorem InOrder.accessed (h : InOrder sp s) (ha : Accessed sp addr size w s s')
    (hE : s.HasEntry ⟨sp, pageOf addr⟩) (hF' : Frames none s') : InOrder sp s' :=
  ⟨hF', ha.slots h.frames hE h.slots, ha.sameSpaces.current.trans h.current⟩

theorem InOrder.safeAccessed (h : InOrder sp s) (ha : SafeAccessed sp addr size w s s')
    (hE : s.HasEntry ⟨sp, pageOf addr⟩) (hF' : Frames none s') :
    InOrder sp s' ∧ SameSpaces s s' := by
  cases ha with
  | mapped s' hm ha => exact ⟨h.accessed ha hE hF', ha.sameSpaces⟩
  | loaded s₁ s' hno ha₁ hF₁ hm ha =>
    have hE₁ := (ha₁.sameSpaces.hasEntry _).2 hE
    exact ⟨(h.accessed ha₁ hE hF₁).accessed ha hE₁ hF', ha₁.sameSpaces.trans ha.sameSpaces⟩

theorem HasBytes.safeAccessed (hB : HasBytes spec s r) (h : InOrder sp s)
    (ha : SafeAccessed sp addr size w s s') (hE : s.HasEntry ⟨sp, pageOf addr⟩)
    (hspare : Spares s ⟨sp, pageOf addr⟩ r) :
    HasBytes (afterAccess spec ⟨sp, pageOf addr⟩ (offsetOf addr) size w) s' r := by
  cases ha with
  | mapped s' hm ha =>
    exact ((hB.accessed ha h.frames h.slots h.current hE hspare).resolve_left fun hno =>
      hno.1 hm).2
  | loaded s₁ s' hno ha₁ hF₁ hm ha =>
    have hB₁ := ((hB.accessed ha₁ h.frames h.slots h.current hE hspare).resolve_right fun hm =>
      hno hm.1).2
    have h₁ := h.accessed ha₁ hE hF₁
    have hE₁ := (ha₁.sameSpaces.hasEntry _).2 hE
    -- the page is in memory now
    have hspare₁ : Spares s₁ ⟨sp, pageOf addr⟩ r := by
      intro hinv
      obtain ⟨i, hi⟩ := hm
      have hv := (hF₁.mirror h₁.current hi).2.1
      rw [hinv] at hv
      cases hv
    exact ((hB₁.accessed ha hF₁ h₁.slots h₁.current hE₁ hspare₁).resolve_left fun hno =>
      hno.1 hm).2

theorem ValueAt.pageByte {value : BitVec 32} (h : ValueAt s sp addr size value) {k : ℕ}
    (hk : k < size) :
    pageByte s ⟨sp, pageOf addr⟩ (offsetOf addr + k) = some (byteOf value k) := by
  obtain ⟨f, hv, hp, hread⟩ := h
  rw [pageByte_valid hv hp, byteOf_readValue hread hk, Nat.add_assoc]

end Bytes

end Nachos
