import Nachos.VM.Transparency
import Nachos.VM.Loading

/-!
# Sharing after `Fork`

`Nachos_Fork` gives the child a space made by `AddrSpace(AddrSpace*)`: "text, init data and uninit
data are shared".  The table is copied by value.  A page that is in memory at the fork is then
designated by two entries, only one of which is in the `IPT`; a page that is not gets a frame for
each of the two, and if it is in the swap file, both tables have its slot.

* `Forked` is a state together with the bytes that parent and child should see: those of the parent
  at the fork, overwritten by what either of them writes (`ForkStep`).  It has on record who wrote
  each byte last, and which page was last written to each slot of the swap file, since the fork.
* `fork_shares`: in every run of steps that do no harm (`ForkSafe`) both read these bytes, and no
  entry designates a frame with another page.
* `fork_not_shared`: with other steps neither holds.
-/

namespace Nachos

open Transition Fallible

variable {c : Sizes}

/-! ### Parent and child -/

/-- The pages that `AddrSpace(AddrSpace*)` shares: all but the last eight. -/
def sharedPages (s : VM c) (p : ℕ) : ℕ := (s.spaces p).numPages - 8

/-- A state after the fork, the shared bytes as they should be, the space that wrote a byte last and
the page that was last written to a slot. -/
structure Forked (c : Sizes) where
  vm : VM c
  flat : FlatMemory
  writer : ℕ → Option ℕ
  swapped : Fin c.SWAPSize → Option PTRef

/-- The state after the running parent `p` has made a child: the shared bytes are the parent's.
Those that are nowhere, of uninitialised data and behind the end of the executable, are zeros. -/
def Forked.start (p : ℕ) (s : VM c) : Forked c where
  vm := copyAddrSpace p s
  flat a :=
    if a / PageSize < sharedPages s p then
      some ((pageByte s ⟨p, a / PageSize⟩ (a % PageSize)).getD 0)
    else none
  writer _ := none
  swapped _ := none

/-- Parent `p` has just made the child `ch`. -/
def ForkInit (p ch : ℕ) (t : Forked c) : Prop :=
  ∃ s, Reachable s ∧ s.current = some p ∧ ch = s.numSpaces ∧ t = .start p s

/-- The shared bytes after a step: a `WriteMem` counts when it finds its page in the TLB. -/
def Forked.flatAfter (p : ℕ) (t : Forked c) : Action c → FlatMemory
  | .write addr size value =>
    if pageOf addr < sharedPages t.vm p ∧ ∃ i, t.vm.Maps i (pageOf addr) then
      t.flat.store addr.toNat size value
    else t.flat
  | _ => t.flat

def Forked.writerAfter (p : ℕ) (t : Forked c) : Action c → ℕ → Option ℕ
  | .write addr size _ =>
    if pageOf addr < sharedPages t.vm p ∧ ∃ i, t.vm.Maps i (pageOf addr) then fun a =>
      if addr.toNat ≤ a ∧ a < addr.toNat + size then t.vm.current else t.writer a
    else t.writer
  | _ => t.writer

/-- The access finds its page neither in the TLB nor in memory. -/
def Faults (s : VM c) (a : Action c) : Prop :=
  ∃ sp ∈ s.current, ∃ addr ∈ a.addr, (∀ i, ¬ s.Maps i (pageOf addr)) ∧
    (s.pageTable ⟨sp, pageOf addr⟩).valid = false
  deriving Decidable

def Forked.swappedAfter (t : Forked c) (a : Action c) (k : Fin c.SWAPSize) : Option PTRef :=
  if Faults t.vm a ∧ takenSlot t.vm = some k then t.vm.IPT (clockVictim t.vm) else t.swapped k

/-- The steps of parent and child: accesses, and switches between the two. -/
def BetweenTwo (p ch : ℕ) : Action c → Prop
  | .create _ => False
  | .read _ _ => True
  | .write _ _ _ => True
  | .switchOut _ => True
  | .switchIn sp _ => sp = p ∨ sp = ch

/-- One step after the fork. -/
def ForkStep (p ch : ℕ) (t : Forked c) (a : Action c) (t' : Forked c) : Prop :=
  BetweenTwo p ch a ∧ Step t.vm a t'.vm ∧ t'.flat = t.flatAfter p a ∧
    t'.writer = t.writerAfter p a ∧ t'.swapped = t.swappedAfter a

/-! ### Steps that do no harm -/

/-- The frame that the clock selects is designated by the tables of parent and child. -/
def SharedVictim (p ch : ℕ) (s : VM c) : Prop :=
  ∃ v < sharedPages s p, (s.pageTable ⟨p, v⟩).valid = true ∧ (s.pageTable ⟨ch, v⟩).valid = true ∧
    (s.pageTable ⟨p, v⟩).physicalPage = (clockVictim s : ℕ) ∧
    (s.pageTable ⟨ch, v⟩).physicalPage = (clockVictim s : ℕ)

/-- Both tables have the page in the same frame. -/
def Joint (p ch : ℕ) (s : VM c) (v : ℕ) : Prop :=
  (s.pageTable ⟨p, v⟩).valid = true ∧ (s.pageTable ⟨ch, v⟩).valid = true ∧
    (s.pageTable ⟨p, v⟩).physicalPage = (s.pageTable ⟨ch, v⟩).physicalPage
  deriving Decidable

/-- Nobody but `sp` was the last to write the byte. -/
def Forked.Own (t : Forked c) (sp a : ℕ) : Prop := ∀ w ∈ t.writer a, w = sp
  deriving Decidable

/-- No other page was written to the slot of the page at `r` since. -/
def SlotKept (t : Forked c) (r : PTRef) : Prop :=
  (t.vm.pageTable r).valid = false → (t.vm.pageTable r).dirty = true →
    ∀ k : Fin c.SWAPSize, (t.vm.pageTable r).physicalPage = (k : ℕ) →
      t.swapped k = none ∨ t.swapped k = some r
  deriving Decidable

/-- A fault on the page at `r`: no frame is taken that both tables designate.  If the page is
shared, its slot is still its own, the victim does not go there first, and where there is no byte to
read, the frame has a zero or will be cleared. -/
def FaultSafe (p ch : ℕ) (t : Forked c) (r : PTRef) : Prop :=
  (∀ i, ¬ t.vm.Maps i r.vpn) → (t.vm.pageTable r).valid = false →
    (r.vpn < sharedPages t.vm p → SlotKept t r ∧ SlotLeft t.vm r ∧
      ∀ o < PageSize, sourceByte t.vm r o = none → restByte t.vm r o = 0) ∧
    ((∀ f : Fin c.NumPhysPages, t.vm.MemBitMap.isSet f = true) → ¬ SharedVictim p ch t.vm)

/-- A read of shared bytes: the tables have the page in the same frame, or the other space was not
the last to write any of the bytes. -/
def ReadSafe (p ch : ℕ) (t : Forked c) (sp : ℕ) (addr : BitVec 32) (size : ℕ) : Prop :=
  pageOf addr < sharedPages t.vm p →
    Joint p ch t.vm (pageOf addr) ∨ ∀ k < size, t.Own sp (addr.toNat + k)

/-- Entry `i` of the TLB is the last one for page `v`, valid or not. -/
def LastFor (s : VM c) (v : ℕ) (i : Fin c.TLBSize) : Prop :=
  (s.tlb i).virtualPage = v ∧ ∀ j, i < j → (s.tlb j).virtualPage ≠ v
  deriving Decidable

/-- `SaveState` leaves a page the bits of the last entry for it.  For a shared page that does not
clear a dirty bit, nor set that of a page which is not in memory. -/
def SwitchSafe (p ch : ℕ) (t : Forked c) (sp : ℕ) : Prop :=
  ∀ v < sharedPages t.vm p, ¬ Joint p ch t.vm v → ∀ i, LastFor t.vm v i →
    (Dirtied t.vm ⟨sp, v⟩ → (t.vm.tlb i).dirty = true) ∧
    ((t.vm.pageTable ⟨sp, v⟩).valid = false →
      (t.vm.tlb i).dirty = (t.vm.pageTable ⟨sp, v⟩).dirty)

/-- The steps that do no harm. -/
def ForkSafe (p ch : ℕ) (t : Forked c) : Action c → Prop
  | .read addr size => ∀ sp ∈ t.vm.current,
    FaultSafe p ch t ⟨sp, pageOf addr⟩ ∧ ReadSafe p ch t sp addr size
  | .write addr _ _ => ∀ sp ∈ t.vm.current, FaultSafe p ch t ⟨sp, pageOf addr⟩
  | .switchOut _ => ∀ sp ∈ t.vm.current, SwitchSafe p ch t sp
  | _ => True

/-- The states that parent and child reach by steps that do no harm. -/
def ForkReach (p ch : ℕ) (t : Forked c) : Prop :=
  Reach (ForkInit p ch) (fun t a t' => ForkStep p ch t a t' ∧ ForkSafe p ch t a) t

/-! ### The invariant of harmless runs -/

/-- Entries of parent and child for one of the pages `J` stand for the same page. -/
def forkAlias (p ch : ℕ) (J : ℕ → Prop) : Alias where
  rel q r := q = r ∨ q.vpn = r.vpn ∧ J q.vpn ∧ q.space ∈ [p, ch] ∧ r.space ∈ [p, ch]
  self _ := Or.inl rfl
  separate := by
    rintro ⟨qs, qv⟩ ⟨rs, rv⟩ ⟨rs', rv'⟩ h h' hsp
    simp only [PTRef.mk.injEq] at *
    omega

variable {p ch : ℕ} {J : ℕ → Prop} {r : PTRef} {sp v : ℕ} {a : Action c}

theorem forkAlias_vpn {q : PTRef} (h : (forkAlias p ch J).rel q r) : q.vpn = r.vpn := by
  rcases h with rfl | ⟨h, -⟩
  · rfl
  · exact h

/-- What holds as long as no step does harm; `J` are the shared pages that were in memory at the
fork, and still are.  Of any other page each table has the bytes that its space wrote, and those
that nobody wrote; and if the page counts as clean, they are in the executable. -/
structure ForkInv (p ch : ℕ) (J : ℕ → Prop) (t : Forked c) : Prop where
  distinct : p ≠ ch
  frames : FramesUpTo (forkAlias p ch J) none t.vm
  current : ∀ sp, t.vm.current = some sp → sp ∈ [p, ch]
  size : ∀ sp ∈ [p, ch], (t.vm.spaces sp).numPages = (t.vm.spaces p).numPages
  joint : ∀ v, J v → v < sharedPages t.vm p ∧ ∃ f : Fin c.NumPhysPages, ∀ sp ∈ [p, ch],
    (t.vm.pageTable ⟨sp, v⟩).valid = true ∧ (t.vm.pageTable ⟨sp, v⟩).physicalPage = (f : ℕ)
  bytes : ∀ sp ∈ [p, ch], ∀ v < sharedPages t.vm p, SlotKept t ⟨sp, v⟩ → ∀ o < PageSize,
    J v ∨ t.Own sp (v * PageSize + o) →
    t.flat (v * PageSize + o) = some ((pageByte t.vm ⟨sp, v⟩ o).getD 0)
  clean : ∀ sp ∈ [p, ch], ∀ v < sharedPages t.vm p, ¬ J v → ¬ Dirtied t.vm ⟨sp, v⟩ →
    ∀ o < PageSize, t.Own sp (v * PageSize + o) →
    t.flat (v * PageSize + o) = some ((imageByte t.vm ⟨sp, v⟩ o).getD 0)

section Inv

variable {t : Forked c} (h : ForkInv p ch J t)
include h

theorem ForkInv.hasEntry (hsp : sp ∈ [p, ch]) (hv : v < sharedPages t.vm p) :
    t.vm.HasEntry ⟨sp, v⟩ := by
  show v < (t.vm.spaces sp).numPages
  rw [h.size sp hsp]
  exact Nat.lt_of_lt_of_le hv (Nat.sub_le _ _)

/-- Pages in one frame have the same number. -/
theorem ForkInv.vpn_eq {q : PTRef} (hq : t.vm.HasEntry q) (hr : t.vm.HasEntry r)
    (hqv : (t.vm.pageTable q).valid = true) (hrv : (t.vm.pageTable r).valid = true)
    (hp : (t.vm.pageTable q).physicalPage = (t.vm.pageTable r).physicalPage) : q.vpn = r.vpn := by
  obtain ⟨f, q', -, hf, hI, hrel⟩ := h.frames.owner q hq hqv
  obtain ⟨g, r', -, hg, hI', hrel'⟩ := h.frames.owner r hr hrv
  have hfg : f = g := Fin.ext (by omega)
  subst hfg
  rw [hI] at hI'
  cases hI'
  exact (forkAlias_vpn hrel).symm.trans (forkAlias_vpn hrel')

/-- A page in memory at the fork loses its frame only when both tables designate it. -/
theorem ForkInv.sharedVictim (hv : J v) (hsp : sp ∈ [p, ch])
    (hI : t.vm.IPT (clockVictim t.vm) = some ⟨sp, v⟩) : SharedVictim p ch t.vm := by
  obtain ⟨hlt, f, hf⟩ := h.joint v hv
  obtain ⟨-, -, hp⟩ := h.frames.ipt _ _ (by simp) hI
  have hfx : (f : ℕ) = clockVictim t.vm := by
    have := (hf sp hsp).2
    omega
  rw [hfx] at hf
  obtain ⟨h1, h2⟩ := hf p (by simp)
  obtain ⟨h3, h4⟩ := hf ch (by simp)
  exact ⟨v, hlt, h1, h3, h2, h4⟩

/-- A harmless fault takes frames from pages without alias only. -/
theorem ForkInv.soloVictim (hsafe : FaultSafe p ch t r) (hc : t.vm.current = some r.space) :
    SoloVictim (forkAlias p ch J) t.vm r := by
  intro hinv hfull rv hI q hE hv hrel
  rcases hrel with heq | ⟨hvpn, hJ, hq, -⟩
  · exact heq.symm
  · have hno : ∀ i, ¬ t.vm.Maps i r.vpn := by
      intro i hm
      have := (h.frames.mirror hc hm).2.1
      rw [show (⟨r.space, r.vpn⟩ : PTRef) = r from rfl, hinv] at this
      cases this
    exact absurd (h.sharedVictim hJ hq hI) ((hsafe hno hinv).2 hfull)

end Inv

/-- A page that both tables have in one frame was in memory at the fork. -/
theorem ForkInv.of_joint {t : Forked c} (h : ForkInv p ch J t) (hlt : v < sharedPages t.vm p)
    (hj : Joint p ch t.vm v) : J v := by
  obtain ⟨hp, hc, heq⟩ := hj
  obtain ⟨f, q, -, hf, hI, hrel⟩ := h.frames.owner _ (h.hasEntry (by simp) hlt) hp
  obtain ⟨g, q', -, hg, hI', hrel'⟩ := h.frames.owner _ (h.hasEntry (by simp) hlt) hc
  have hfg : f = g := Fin.ext (by omega)
  rw [hfg, hI'] at hI
  cases hI
  rcases hrel with rfl | ⟨hvpn, hJ, -⟩
  · rcases hrel' with heq | ⟨-, hJ, -⟩
    · exact absurd (congrArg PTRef.space heq) h.distinct
    · exact hJ
  · rwa [show q.vpn = v from hvpn] at hJ

/-- The steps that leave frames, memory and page tables alone, up to use bits and to dirty bits of
pages in memory that are set. -/
theorem ForkInv.switch {t t' : Forked c} (h : ForkInv p ch J t)
    (hF : FramesUpTo (forkAlias p ch J) none t'.vm)
    (hcur : ∀ sp, t'.vm.current = some sp → sp ∈ [p, ch]) (hspaces : t'.vm.spaces = t.vm.spaces)
    (hfiles : t'.vm.files = t.vm.files) (hswap : t'.vm.swapFile = t.vm.swapFile)
    (hmem : t'.vm.mainMemory = t.vm.mainMemory) (hflat : t'.flat = t.flat)
    (hwriter : t'.writer = t.writer) (hswapped : t'.swapped = t.swapped)
    (hent : ∀ r, (t'.vm.pageTable r).valid = (t.vm.pageTable r).valid ∧
      (t'.vm.pageTable r).physicalPage = (t.vm.pageTable r).physicalPage)
    (hbit : ∀ sp ∈ [p, ch], ∀ v < sharedPages t.vm p, (t.vm.pageTable ⟨sp, v⟩).valid = false →
      (t'.vm.pageTable ⟨sp, v⟩).dirty = (t.vm.pageTable ⟨sp, v⟩).dirty)
    (hdirty : ∀ sp ∈ [p, ch], ∀ v < sharedPages t.vm p, ¬ J v → Dirtied t.vm ⟨sp, v⟩ →
      Dirtied t'.vm ⟨sp, v⟩) : ForkInv p ch J t' where
  distinct := h.distinct
  frames := hF
  current := hcur
  size := by rw [hspaces]; exact h.size
  joint v hv := by
    simp only [sharedPages, hspaces, (hent _).1, (hent _).2]
    exact h.joint v hv
  bytes sp hsp v hv hk o ho hown := by
    have hv₀ : v < sharedPages t.vm p := by simpa only [sharedPages, hspaces] using hv
    have hbyte : pageByte t'.vm ⟨sp, v⟩ o = pageByte t.vm ⟨sp, v⟩ o := by
      unfold pageByte
      rw [(hent _).1, (hent _).2, hmem]
      split_ifs with hval
      · rfl
      · unfold sourceByte slotByte
        rw [hbit sp hsp v hv₀ (eq_false_of_ne_true hval), (hent _).2, hswap,
          imageByte_congr hspaces hfiles]
    rw [hflat, hbyte]
    refine h.bytes sp hsp v hv₀ (fun hval hd k hp => ?_) o ho ?_
    · rw [← hswapped]
      exact hk ((hent _).1.trans hval) ((hbit sp hsp v hv₀ hval).trans hd) k ((hent _).2.trans hp)
    · simpa only [Forked.Own, hwriter] using hown
  clean sp hsp v hv hJ hd o ho hown := by
    have hv₀ : v < sharedPages t.vm p := by simpa only [sharedPages, hspaces] using hv
    rw [hflat, imageByte_congr hspaces hfiles]
    refine h.clean sp hsp v hv₀ hJ (fun hd₀ => hd (hdirty sp hsp v hv₀ hJ hd₀)) o ho ?_
    simpa only [Forked.Own, hwriter] using hown

/-- A slot is filled for a page. -/
theorem takenSlot_victim {A : Alias} {s : VM c} (h : FramesUpTo A none s) {k : Fin c.SWAPSize}
    (hk : takenSlot s = some k) : ∃ rv, s.IPT (clockVictim s) = some rv := by
  unfold takenSlot at hk
  split_ifs at hk with hfull
  exact Option.ne_none_iff_exists'.1 ((h.bit _ (by simp)).1 (hfull.1 _))

section Miss

variable {t t' : Forked c} {o : ℕ} (h : ForkInv p ch J t) (hc : t.vm.current = some r.space)
  (hE : t.vm.HasEntry r) (hno : ∀ i, ¬ t.vm.Maps i r.vpn) (hsafe : FaultSafe p ch t r)
  (hl : Loaded r.space r.vpn t.vm t'.vm)

include h hno hsafe hl

/-- The page that is loaded has its bytes. -/
theorem ForkInv.miss_loaded (hr : ⟨sp, v⟩ = r) (hinv : (t.vm.pageTable r).valid = false)
    (hsp : sp ∈ [p, ch]) (hv : v < sharedPages t.vm p) (ho : o < PageSize)
    (how : J v ∨ t.Own sp (v * PageSize + o)) :
    t.flat (v * PageSize + o) = some ((pageByte t'.vm ⟨sp, v⟩ o).getD 0) := by
  subst hr
  obtain ⟨hkept, hleft, hrest⟩ := (hsafe hno hinv).1 hv
  have hold := h.bytes sp hsp v hv hkept o ho how
  rcases hl.pageByte_loaded hinv hleft ho with heq | ⟨hnone, hzero⟩
  · rw [heq, hold, Option.getD_some]
    cases hsrc : pageByte t.vm ⟨sp, v⟩ o with
    | some b => rfl
    | none =>
      rw [pageByte_invalid hinv] at hsrc
      rw [hrest o ho hsrc]
  · rw [hzero, hold, hnone]
    rfl

include hc hE

/-- A page of `J` is in memory, and stays there. -/
theorem ForkInv.miss_valid (hJ : J v) (hsp : sp ∈ [p, ch]) :
    (t'.vm.pageTable ⟨sp, v⟩).valid = true := by
  obtain ⟨-, f, hf⟩ := h.joint v hJ
  by_contra hinv
  obtain ⟨hrv, hfull, hI, -⟩ := hl.victim h.frames (h.soloVictim hsafe hc) hE (hf sp hsp).1
    (eq_false_of_ne_true hinv)
  exact (hsafe hno hrv).2 hfull (h.sharedVictim hJ hsp hI)

/-- The victim keeps its bytes: it goes to its slot, or has the bytes of the executable. -/
theorem ForkInv.miss_victim (hF : FramesUpTo (forkAlias p ch J) none t'.vm) (hsp : sp ∈ [p, ch])
    (hv : v < sharedPages t.vm p) (hval : (t.vm.pageTable ⟨sp, v⟩).valid = true)
    (hval' : (t'.vm.pageTable ⟨sp, v⟩).valid = false) (ho : o < PageSize)
    (how : J v ∨ t.Own sp (v * PageSize + o)) :
    t.flat (v * PageSize + o) = some ((pageByte t'.vm ⟨sp, v⟩ o).getD 0) := by
  have hsolo := h.soloVictim hsafe hc
  have hd := (hl.victim h.frames hsolo hE hval hval').2.2.2.1
  rw [hl.pageByte_victim h.frames hsolo hE hval hval' ho]
  split_ifs with hfd
  · exact h.bytes sp hsp v hv (fun hinv => by rw [hval] at hinv; cases hinv) o ho how
  · have hJ : ¬ J v := fun hJ => by
      rw [h.miss_valid hc hE hno hsafe hl hJ hsp] at hval'
      cases hval'
    refine h.clean sp hsp v hv hJ (fun hdirtied => hfd ?_) o ho (how.resolve_left hJ)
    rw [← hd]
    exact (dirtied_of_invalid hF hval').1 (Dirtied.loaded hl h.frames hsolo hE hdirtied hc hno)

variable (hswapped : ∀ k, t'.swapped k =
  if (t.vm.pageTable r).valid = false ∧ takenSlot t.vm = some k then t.vm.IPT (clockVictim t.vm)
  else t.swapped k)

include hswapped

/-- A page that stays out of memory keeps its bytes, if its slot is still its own. -/
theorem ForkInv.miss_waiting (hval : (t.vm.pageTable ⟨sp, v⟩).valid = false)
    (hval' : (t'.vm.pageTable ⟨sp, v⟩).valid = false) (hk : SlotKept t' ⟨sp, v⟩)
    (ho : o < PageSize) : SlotKept t ⟨sp, v⟩ ∧
      (pageByte t'.vm ⟨sp, v⟩ o).getD 0 = (pageByte t.vm ⟨sp, v⟩ o).getD 0 := by
  have hsolo := h.soloVictim hsafe hc
  have hne : (⟨sp, v⟩ : PTRef) ≠ r := by
    rintro rfl
    rw [hl.valid] at hval'
    cases hval'
  obtain ⟨-, hd, hp⟩ := hl.waiting h.frames hsolo hE hval hne
  have hleft : (t.vm.pageTable r).valid = false → SlotLeft t.vm ⟨sp, v⟩ := by
    intro hinv hdirty k hpk hslot
    have hk' := hk hval' (hd.trans hdirty) k (hp.trans hpk)
    rw [hswapped, if_pos ⟨hinv, hslot⟩] at hk'
    obtain ⟨rv, hI⟩ := takenSlot_victim h.frames hslot
    rw [hI] at hk'
    cases Option.some.inj (hk'.resolve_left (by simp))
    rw [(h.frames.ipt _ _ (by simp) hI).2.1] at hval
    cases hval
  refine ⟨fun _ hdirty k hpk => ?_, ?_⟩
  · have hk' := hk hval' (hd.trans hdirty) k (hp.trans hpk)
    rwa [hswapped, if_neg fun h => hleft h.1 hdirty k hpk h.2] at hk'
  · rcases hl.pageByte_waiting h.frames hsolo hE hval hne hleft ho with heq | ⟨hnone, hzero⟩
    · rw [heq]
    · rw [hzero, hnone]
      rfl

/-- A harmless miss. -/
theorem ForkInv.miss (hF : FramesUpTo (forkAlias p ch J) none t'.vm) (hflat : t'.flat = t.flat)
    (hwriter : t'.writer = t.writer) : ForkInv p ch J t' := by
  have hsolo := h.soloVictim hsafe hc
  have hspaces : t'.vm.spaces = t.vm.spaces := hl.sameSpaces.spaces
  have hshared : sharedPages t'.vm p = sharedPages t.vm p := by rw [sharedPages, hspaces]; rfl
  have hown : ∀ sp a, t'.Own sp a ↔ t.Own sp a := fun sp a => by
    simp only [Forked.Own, hwriter]
  refine ⟨h.distinct, hF, ?_, ?_, ?_, ?_, ?_⟩
  · rw [hl.sameSpaces.current]
    exact h.current
  · rw [hspaces]
    exact h.size
  · intro v hv
    obtain ⟨hlt, f, hf⟩ := h.joint v hv
    refine ⟨by rw [hshared]; exact hlt, f, fun sp hsp => ?_⟩
    have hvalid := h.miss_valid hc hE hno hsafe hl hv hsp
    have hother : (t.vm.pageTable r).valid = true ∨ (⟨sp, v⟩ : PTRef) ≠ r := by
      by_cases heq : (⟨sp, v⟩ : PTRef) = r
      · exact Or.inl (heq ▸ (hf sp hsp).1)
      · exact Or.inr heq
    obtain ⟨-, hp, -⟩ := hl.survivor h.frames hsolo (h.hasEntry hsp hlt) hvalid hother
    exact ⟨hvalid, hp.trans (hf sp hsp).2⟩
  · intro sp hsp v hv hk o ho how
    rw [hshared] at hv
    rw [hown] at how
    rw [hflat]
    have hEv := h.hasEntry hsp hv
    cases hval' : (t'.vm.pageTable ⟨sp, v⟩).valid with
    | true =>
      by_cases hother : (t.vm.pageTable r).valid = true ∨ (⟨sp, v⟩ : PTRef) ≠ r
      · have hval := (hl.survivor h.frames hsolo hEv hval' hother).1
        rw [hl.pageByte_survivor h.frames hsolo hEv hval' hother ho]
        exact h.bytes sp hsp v hv (fun hinv => by rw [hval] at hinv; cases hinv) o ho how
      · rw [not_or, not_not] at hother
        exact h.miss_loaded hno hsafe hl hother.2 (eq_false_of_ne_true hother.1) hsp hv ho how
    | false =>
      cases hval : (t.vm.pageTable ⟨sp, v⟩).valid with
      | true => exact h.miss_victim hc hE hno hsafe hl hF hsp hv hval hval' ho how
      | false =>
        obtain ⟨hkept, heq⟩ := h.miss_waiting hc hE hno hsafe hl hswapped hval hval' hk ho
        rw [heq]
        exact h.bytes sp hsp v hv hkept o ho how
  · intro sp hsp v hv hJ hd o ho how
    rw [hshared] at hv
    rw [hown] at how
    rw [hflat, imageByte_congr hspaces hl.sameSpaces.files]
    refine h.clean sp hsp v hv hJ (fun hd₀ => hd ?_) o ho how
    exact Dirtied.loaded hl h.frames hsolo hE hd₀ hc hno

end Miss

/-- A shared byte is written by the step, or stays as it is. -/
theorem Forked.written {t : Forked c} {size : ℕ} {addr : BitVec 32} (value : BitVec 32)
    {i : Fin c.TLBSize} (hc : t.vm.current = some sp) (hm : t.vm.Maps i (pageOf addr))
    (hs : offsetOf addr + size ≤ PageSize) {o : ℕ} (hlt : v < sharedPages t.vm p)
    (ho : o < PageSize) :
    (v = pageOf addr ∧ (offsetOf addr ≤ o ∧ o < offsetOf addr + size) ∧
      t.flatAfter p (.write addr size value) (v * PageSize + o) =
        some (byteOf value (o - offsetOf addr)) ∧
      t.writerAfter p (.write addr size value) (v * PageSize + o) = some sp) ∨
    (¬ (v = pageOf addr ∧ offsetOf addr ≤ o ∧ o < offsetOf addr + size) ∧
      t.flatAfter p (.write addr size value) (v * PageSize + o) = t.flat (v * PageSize + o) ∧
      t.writerAfter p (.write addr size value) (v * PageSize + o) =
        t.writer (v * PageSize + o)) := by
  simp only [Forked.flatAfter, Forked.writerAfter]
  by_cases hin : v = pageOf addr ∧ offsetOf addr ≤ o ∧ o < offsetOf addr + size
  · obtain ⟨rfl, hin⟩ := hin
    refine Or.inl ⟨rfl, hin, ?_⟩
    rw [if_pos ⟨hlt, i, hm⟩, if_pos ⟨hlt, i, hm⟩, FlatMemory.store, toNat_eq addr,
      if_pos (by omega), if_pos (by omega)]
    refine ⟨?_, hc⟩
    congr 2
    omega
  · refine Or.inr ⟨hin, ?_⟩
    have hout : ¬ (addr.toNat ≤ v * PageSize + o ∧ v * PageSize + o < addr.toNat + size) := by
      rw [toNat_eq addr]
      by_cases hvp : v = pageOf addr
      · subst hvp
        omega
      · have := page_disjoint hvp ho
        omega
    split_ifs
    · exact ⟨if_neg hout, if_neg hout⟩
    · exact ⟨rfl, rfl⟩

/-- A harmless write that finds its page. -/
theorem ForkInv.writeHit {t t' : Forked c} {size : ℕ} {addr value : BitVec 32} {i : Fin c.TLBSize}
    {f : Fin c.NumPhysPages} (h : ForkInv p ch J t) (hc : t.vm.current = some sp)
    (hm : t.vm.Maps i (pageOf addr))
    (hp : (t.vm.pageTable ⟨sp, pageOf addr⟩).physicalPage = (f : ℕ))
    (hs : offsetOf addr + size ≤ PageSize) (hvm : t'.vm = { t.vm.touch i true with
      mainMemory := storeBytes t.vm.mainMemory (f * PageSize + offsetOf addr) size value })
    (hflat : t'.flat = t.flatAfter p (.write addr size value))
    (hwriter : t'.writer = t.writerAfter p (.write addr size value))
    (hswapped : t'.swapped = t.swapped) : ForkInv p ch J t' := by
  obtain ⟨hE, hv, -, -⟩ := h.frames.mirror hc hm
  have hsp := h.current sp hc
  have hpt : t'.vm.pageTable = t.vm.pageTable := by rw [hvm]; rfl
  have hshared : sharedPages t'.vm p = sharedPages t.vm p := by rw [hvm]; rfl
  refine ⟨h.distinct, ?_, ?_, ?_, ?_, ?_, ?_⟩
  · rw [hvm]
    exact h.frames.hit i true _
  · rw [hvm]
    exact h.current
  · rw [hvm]
    exact h.size
  · rw [hshared, hpt]
    exact h.joint
  · intro sp' hsp' v hlt hk o ho hown
    rw [hshared] at hlt
    have hk₀ : SlotKept t ⟨sp', v⟩ := by rwa [SlotKept, hpt, hswapped] at hk
    rw [Forked.Own, hwriter] at hown
    rw [hflat]
    rcases Forked.written value hc hm hs hlt ho with
      ⟨rfl, hin, hbyte, hlast⟩ | ⟨hin, hbyte, hlast⟩
    · -- the byte is written: the table of `sp'` has the page in the frame `f`
      have hpage : (t.vm.pageTable ⟨sp', pageOf addr⟩).valid = true ∧
          (t.vm.pageTable ⟨sp', pageOf addr⟩).physicalPage = (f : ℕ) := by
        rcases hown with hJ | hown
        · obtain ⟨-, g, hg⟩ := h.joint _ hJ
          exact ⟨(hg sp' hsp').1, (hg sp' hsp').2.trans ((hg sp hsp).2.symm.trans hp)⟩
        · cases hown sp hlast
          exact ⟨hv, hp⟩
      rw [← hpt] at hpage
      rw [hbyte, pageByte_valid hpage.1 hpage.2, hvm, Option.getD_some]
      simp only [storeBytes]
      rw [if_pos (by omega)]
      congr 2
      omega
    · rw [hlast] at hown
      rw [hbyte, h.bytes sp' hsp' v hlt hk₀ o ho hown]
      cases hval : (t.vm.pageTable ⟨sp', v⟩).valid with
      | false =>
        rw [pageByte_invalid hval, pageByte_invalid (by rw [hpt, hval]), hvm]
        rfl
      | true =>
        obtain ⟨g, -, -, hg, -⟩ := h.frames.owner _ (h.hasEntry hsp' hlt) hval
        rw [pageByte_valid hval hg, pageByte_valid (by rw [hpt, hval]) (by rw [hpt, hg]), hvm]
        simp only [storeBytes]
        rw [if_neg]
        intro hmem
        by_cases hgf : (g : ℕ) = f
        · have hvp : v = pageOf addr :=
            h.vpn_eq (h.hasEntry hsp' hlt) hE hval hv (by rw [hg, hp, hgf])
          rw [hgf] at hmem
          exact hin ⟨hvp, by omega, by omega⟩
        · have := page_disjoint hgf ho
          omega
  · intro sp' hsp' v hlt hJ hd o ho hown
    rw [hshared] at hlt
    rw [Forked.Own, hwriter] at hown
    have himage : imageByte t'.vm ⟨sp', v⟩ o = imageByte t.vm ⟨sp', v⟩ o := by rw [hvm]; rfl
    rw [hvm] at hd
    rw [hflat, himage]
    rcases Forked.written value hc hm hs hlt ho with ⟨rfl, hin, -, hlast⟩ | ⟨hin, hbyte, hlast⟩
    · -- the page that is written counts as dirty
      cases hown sp hlast
      refine absurd (Or.inl ⟨i, hc, ?_, ?_⟩) hd
      · simpa [VM.Maps, VM.touch] using hm
      · simp [VM.touch]
    · rw [hlast] at hown
      rw [hbyte]
      exact h.clean sp' hsp' v hlt hJ (fun hd₀ => hd (hd₀.touch i true)) o ho hown

/-- A hit that does not write. -/
theorem ForkInv.readHit {t t' : Forked c} (h : ForkInv p ch J t) (i : Fin c.TLBSize)
    (ht : t' = { t with vm := t.vm.touch i false }) : ForkInv p ch J t' := by
  subst ht
  exact h.switch (h.frames.hit i false t.vm.mainMemory) h.current rfl rfl rfl rfl rfl rfl rfl
    (fun _ => ⟨rfl, rfl⟩) (fun _ _ _ _ _ => rfl) fun _ _ _ _ _ hd => hd.touch i false

/-- A harmless `SaveState`. -/
theorem ForkInv.switchOut {t : Forked c} (h : ForkInv p ch J t) (hc : t.vm.current = some sp)
    (hsafe : SwitchSafe p ch t sp) (fresh : Fin c.TLBSize → TranslationEntry) :
    ForkInv p ch J { t with
      vm := { (saveStateLoop sp (List.finRange c.TLBSize) t.vm).1 with
        tlb := freshTLB fresh
        current := none } } := by
  have hbits := saveStateLoop_bitsOnly sp (List.finRange c.TLBSize) t.vm
  have hsp := h.current sp hc
  -- the last entry of the TLB for a page decides its bits
  have hlast : ∀ v < sharedPages t.vm p, ¬ Joint p ch t.vm v →
      ((saveStateLoop sp (List.finRange c.TLBSize) t.vm).1.pageTable ⟨sp, v⟩).dirty =
          (t.vm.pageTable ⟨sp, v⟩).dirty ∧ (∀ i, ¬ t.vm.Maps i v) ∨
      (Dirtied t.vm ⟨sp, v⟩ →
        ((saveStateLoop sp (List.finRange c.TLBSize) t.vm).1.pageTable ⟨sp, v⟩).dirty = true) ∧
      ((t.vm.pageTable ⟨sp, v⟩).valid = false →
        ((saveStateLoop sp (List.finRange c.TLBSize) t.vm).1.pageTable ⟨sp, v⟩).dirty =
          (t.vm.pageTable ⟨sp, v⟩).dirty) := by
    intro v hlt hj
    rcases saveStateLoop_bits sp (List.finRange c.TLBSize) t.vm (h.hasEntry hsp hlt)
      (List.pairwise_lt_finRange _) with ⟨i, -, hvp, hlast, heq⟩ | ⟨hnone, heq⟩
    · refine Or.inr ?_
      rw [heq]
      exact hsafe v hlt hj i ⟨hvp, fun j hij => hlast j (List.mem_finRange j) hij⟩
    · exact Or.inl ⟨by rw [heq], fun i hm => hnone i (List.mem_finRange i) hm.2⟩
  have hnj : ∀ v < sharedPages t.vm p, ¬ J v → ¬ Joint p ch t.vm v :=
    fun v hlt hJ hj => hJ (h.of_joint hlt hj)
  refine h.switch ((h.frames.bitsOnly hbits).flush fresh none _) (fun sp' hc' => by cases hc')
    hbits.spaces hbits.files hbits.swapFile hbits.mainMemory rfl rfl rfl
    (fun r => ⟨hbits.valid r, hbits.physicalPage r⟩) ?_ ?_
  · intro sp' hsp' v hlt hval
    by_cases hs : sp' = sp
    · subst hs
      have hj : ¬ Joint p ch t.vm v := by
        rintro ⟨h1, h2, -⟩
        simp only [List.mem_cons, List.not_mem_nil, or_false] at hsp
        rcases hsp with rfl | rfl
        · rw [h1] at hval
          cases hval
        · rw [h2] at hval
          cases hval
      rcases hlast v hlt hj with ⟨heq, -⟩ | ⟨-, heq⟩
      · exact heq
      · exact heq hval
    · exact congrArg TranslationEntry.dirty
        (saveStateLoop_other sp _ t.vm (r := ⟨sp', v⟩) hs)
  · intro sp' hsp' v hlt hJ hd
    refine Or.inr ⟨fun i hc' => (by cases hc'), ?_⟩
    by_cases hs : sp' = sp
    · subst hs
      rcases hlast v hlt (hnj v hlt hJ) with ⟨heq, hno⟩ | ⟨heq, -⟩
      · refine heq.trans ?_
        rcases hd with ⟨i, -, hm, -⟩ | ⟨-, hd⟩
        · exact absurd hm (hno i)
        · exact hd
      · exact heq hd
    · refine (congrArg TranslationEntry.dirty
        (saveStateLoop_other sp _ t.vm (r := ⟨sp', v⟩) hs)).trans ?_
      rcases hd with ⟨i, hc', -, -⟩ | ⟨-, hd⟩
      · exact absurd (Option.some.inj (hc'.symm.trans hc)) hs
      · exact hd

theorem Forked.swappedAfter_of_not {t : Forked c} (h : ¬ Faults t.vm a) :
    t.swappedAfter a = t.swapped := funext fun _ => if_neg fun hf => h hf.1

/-- **A harmless step keeps the invariant.** -/
theorem ForkInv.step {t t' : Forked c} (h : ForkInv p ch J t) (hst : ForkStep p ch t a t')
    (hsafe : ForkSafe p ch t a) : ForkInv p ch J t' := by
  obtain ⟨hb, hstep, hflat, hwriter, hswapped⟩ := hst
  obtain ⟨s', flat', writer', swapped'⟩ := t'
  simp only at hstep hflat hwriter hswapped
  have hfault : ∀ sp addr, t.vm.current = some sp → a.addr = some addr →
      FaultSafe p ch t ⟨sp, pageOf addr⟩ := by
    intro sp addr hc ha
    cases a with
    | create fn => cases ha
    | read addr' size =>
      cases ha
      exact (hsafe sp hc).1
    | write addr' size value =>
      cases ha
      exact hsafe sp hc
    | switchOut fresh => cases ha
    | switchIn sp' fresh => cases ha
  rcases step_cases_upTo h.frames (fun sp addr hc ha => h.soloVictim (hfault sp addr hc ha) hc)
    hstep with ⟨sp, addr, size, w, hc, hE, hacc, hF', hact⟩ | ⟨fn, ex, rfl, -, -, -⟩ |
    ⟨sp, fresh, s₁, rfl, hc, -, rfl, rfl⟩ | ⟨sp, fresh, rfl, hc, rfl⟩
  · have haddr : a.addr = some addr := by
      rcases hact with ⟨rfl, -⟩ | ⟨value, rfl, -⟩ <;> rfl
    cases hacc with
    | miss s' hno hl =>
      have h₀ : ForkInv p ch J { t with vm := { t.vm with BadVAddrReg := addr } } :=
        h.switch { h.frames with } h.current rfl rfl rfl rfl rfl rfl rfl (fun _ => ⟨rfl, rfl⟩)
          (fun _ _ _ _ _ => rfl) fun _ _ _ _ _ hd => hd
      refine h₀.miss (r := ⟨sp, pageOf addr⟩) hc hE hno (hfault sp addr hc haddr) hl ?_ hF' ?_ ?_
      · intro k
        rw [hswapped]
        have hfaults : Faults t.vm a ↔ (t.vm.pageTable ⟨sp, pageOf addr⟩).valid = false := by
          simp [Faults, hc, haddr, hno]
        simp only [Forked.swappedAfter, hfaults]
        rfl
      · rw [hflat]
        rcases hact with ⟨rfl, -⟩ | ⟨value, rfl, -⟩
        · rfl
        · exact if_neg fun ⟨_, i, hm⟩ => hno i hm
      · rw [hwriter]
        rcases hact with ⟨rfl, -⟩ | ⟨value, rfl, -⟩
        · rfl
        · exact if_neg fun ⟨_, i, hm⟩ => hno i hm
    | hit i f hm hv hp hs =>
      have hnot : ¬ Faults t.vm a := by
        rintro ⟨sp', -, addr', ha', hno, -⟩
        rw [haddr] at ha'
        cases ha'
        exact hno i hm
      rw [Forked.swappedAfter_of_not hnot] at hswapped
      rcases hact with ⟨rfl, rfl⟩ | ⟨value, rfl, rfl⟩
      · exact h.readHit i (by rw [hflat, hwriter, hswapped]; rfl)
      · exact h.writeHit hc hm hp hs rfl hflat hwriter hswapped
  · exact absurd hb id
  · rw [hflat, hwriter, hswapped, Forked.swappedAfter_of_not (by simp [Faults, Action.addr])]
    exact h.switchOut hc (hsafe sp hc) fresh
  · rw [Forked.swappedAfter_of_not (by simp [Faults, Action.addr])] at hswapped
    refine h.switch (h.frames.flush fresh _ _) ?_ rfl rfl rfl rfl hflat hwriter hswapped
      (fun r => ⟨rfl, rfl⟩) (fun _ _ _ _ _ => rfl) ?_
    · intro sp' hc'
      cases hc'
      have : sp = p ∨ sp = ch := hb
      simpa using this
    · intro sp' _ v _ _ hd
      rcases hd with ⟨i, hc', -⟩ | ⟨-, hd⟩
      · rw [hc] at hc'
        cases hc'
      · exact Or.inr ⟨fun i _ hm => (by cases hm.1), hd⟩

/-! ### The fork itself -/

/-- The shared pages in memory at the fork. -/
def inMemory (s : VM c) (p v : ℕ) : Prop :=
  v < sharedPages s p ∧ (s.pageTable ⟨p, v⟩).valid = true

section Start

variable {s : VM c}

/-- The entries of the child. -/
theorem copyAddrSpace_child (v : ℕ) : (copyAddrSpace p s).pageTable ⟨s.numSpaces, v⟩ =
    if v < sharedPages s p then { s.pageTable ⟨p, v⟩ with virtualPage := v } else freshEntry v := by
  simp only [copyAddrSpace, VM.addSpace, if_true]
  rfl

theorem copyAddrSpace_other (hr : r.space ≠ s.numSpaces) :
    (copyAddrSpace p s).pageTable r = s.pageTable r ∧
      ((copyAddrSpace p s).HasEntry r ↔ s.HasEntry r) := by
  simp [copyAddrSpace, VM.HasEntry, hr]

/-- The fork makes the parent's pages in memory alias those of the child. -/
theorem framesUpTo_copyAddrSpace (hF : Frames none s) (hu : Unmade s) :
    FramesUpTo (forkAlias p s.numSpaces (inMemory s p)) none (copyAddrSpace p s) := by
  unfold copyAddrSpace
  refine hF.addSpace_upTo hu (s.spaces p) ?_ ?_
  · intro v hv
    split_ifs with hshared
    · exact ⟨rfl, hF.writable ⟨p, v⟩ hv⟩
    · exact ⟨rfl, rfl⟩
  · intro v hv hvalid
    split_ifs at hvalid ⊢ with hshared
    · obtain ⟨f, -, hpp, hI⟩ := hF.owned (r := ⟨p, v⟩) hv hvalid
      exact ⟨f, _, hpp, hI, Or.inr ⟨rfl, ⟨hshared, hvalid⟩, by simp, by simp⟩⟩
    · cases hvalid

theorem forkInv_start (hs : Reachable s) (hc : s.current = some p) :
    ForkInv p s.numSpaces (inMemory s p) (.start p s) := by
  obtain ⟨hF, hu⟩ := hs.frames
  have hp := hs.any.fromFiles.2 p hc
  have hpar : ∀ v, (copyAddrSpace p s).pageTable ⟨p, v⟩ = s.pageTable ⟨p, v⟩ :=
    fun v => (copyAddrSpace_other hp.ne).1
  have hspaces : (copyAddrSpace p s).spaces p = s.spaces p := by
    simp [copyAddrSpace, Function.update_of_ne hp.ne]
  have hshared : sharedPages (copyAddrSpace p s) p = sharedPages s p := by
    simp only [sharedPages, hspaces]
  have hchild : (copyAddrSpace p s).spaces s.numSpaces = s.spaces p := by
    simp [copyAddrSpace]
  -- below the limit both tables have the parent's entry
  have hentry : ∀ sp ∈ [p, s.numSpaces], ∀ v < sharedPages s p,
      (copyAddrSpace p s).spaces sp = s.spaces p ∧
      (copyAddrSpace p s).pageTable ⟨sp, v⟩ =
        { s.pageTable ⟨p, v⟩ with
          virtualPage := ((copyAddrSpace p s).pageTable ⟨sp, v⟩).virtualPage } := by
    intro sp hsp v hv
    simp only [List.mem_cons, List.not_mem_nil, or_false] at hsp
    rcases hsp with rfl | rfl
    · exact ⟨hspaces, by rw [hpar v]⟩
    · exact ⟨hchild, by rw [copyAddrSpace_child, if_pos hv]⟩
  have hbytes : ∀ sp ∈ [p, s.numSpaces], ∀ v < sharedPages s p, ∀ o < PageSize,
      (Forked.start p s).flat (v * PageSize + o) =
        some ((pageByte (copyAddrSpace p s) ⟨sp, v⟩ o).getD 0) := by
    intro sp hsp v hlt o ho
    obtain ⟨h1, h2⟩ := hentry sp hsp v hlt
    have hdiv : (v * PageSize + o) / PageSize = v := by unfold PageSize at *; omega
    have hmod : (v * PageSize + o) % PageSize = o := by unfold PageSize at *; omega
    have hbyte : pageByte (copyAddrSpace p s) ⟨sp, v⟩ o = pageByte s ⟨p, v⟩ o := by
      simp only [pageByte, sourceByte, imageByte, h1]
      rw [h2]
      rfl
    simp only [Forked.start, hdiv, hmod, if_pos hlt, hbyte]
  have hframes := framesUpTo_copyAddrSpace (p := p) hF hu
  refine ⟨hp.ne, hframes, ?_, ?_, ?_, ?_, ?_⟩
  · intro sp hsp
    rw [show (Forked.start p s).vm.current = s.current from rfl, hc] at hsp
    cases hsp
    simp
  · intro sp hsp
    simp only [List.mem_cons, List.not_mem_nil, or_false] at hsp
    rcases hsp with rfl | rfl
    · rfl
    · exact congrArg AddrSpace.numPages (hchild.trans hspaces.symm)
  · rintro v ⟨hlt, hv⟩
    have hE : s.HasEntry ⟨p, v⟩ := Nat.lt_of_lt_of_le hlt (Nat.sub_le _ _)
    obtain ⟨f, -, hpp, -⟩ := hF.owned hE hv
    refine ⟨hshared ▸ hlt, f, fun sp hsp => ?_⟩
    have h2 := (hentry sp hsp v hlt).2
    rw [show (Forked.start p s).vm = copyAddrSpace p s from rfl, h2]
    exact ⟨hv, hpp⟩
  · exact fun sp hsp v hlt _ o ho _ => hbytes sp hsp v (hshared ▸ hlt) o ho
  · intro sp hsp v hlt hJ hd o ho _
    have hlt' : v < sharedPages s p := hshared ▸ hlt
    have hinv : ((copyAddrSpace p s).pageTable ⟨sp, v⟩).valid = false := by
      rw [(hentry sp hsp v hlt').2]
      exact eq_false_of_ne_true fun hv => hJ ⟨hlt', hv⟩
    have hclean : ¬ ((copyAddrSpace p s).pageTable ⟨sp, v⟩).dirty = true := fun hdirty =>
      hd ((dirtied_of_invalid hframes hinv).2 hdirty)
    rw [hbytes sp hsp v hlt' o ho, pageByte_invalid hinv, sourceByte, if_neg hclean]
    rfl

end Start

theorem ForkReach.inv {t : Forked c} (h : ForkReach p ch t) : ∃ J, ForkInv p ch J t := by
  refine Reach.invariant (I := fun t => ∃ J, ForkInv p ch J t) ?_ ?_ h
  · rintro t ⟨s, hs, hc, rfl, rfl⟩
    exact ⟨_, forkInv_start hs hc⟩
  · rintro t a t' ⟨J, hI⟩ ⟨hst, hsafe⟩
    exact ⟨J, hI.step hst hsafe⟩

/-! ### Harmless runs share, others do not -/

/-- Frame `f` holds the page of the entry at `r`, or its twin in the other space. -/
def Holds (p ch : ℕ) (s : VM c) (f : Fin c.NumPhysPages) (r : PTRef) : Prop :=
  ∃ q, s.IPT f = some q ∧ (q = r ∨ q.vpn = r.vpn ∧ r.vpn < sharedPages s p ∧
    q.space ∈ [p, ch] ∧ r.space ∈ [p, ch])

section Decide

variable (t : Forked c)

instance Action.decidableEnabled (a : Action c) (s : VM c) : Decidable (a.enabled s) := by
  cases a <;> unfold Action.enabled <;> infer_instance

instance : DecidablePred (BetweenTwo (c := c) p ch) := fun a => by
  cases a <;> unfold BetweenTwo <;> infer_instance

instance (s : VM c) : Decidable (SharedVictim p ch s) := by
  unfold SharedVictim; infer_instance

instance (r : PTRef) : Decidable (FaultSafe p ch t r) := by
  unfold FaultSafe; infer_instance

instance (sp : ℕ) (addr : BitVec 32) (size : ℕ) : Decidable (ReadSafe p ch t sp addr size) := by
  unfold ReadSafe; infer_instance

instance (sp : ℕ) : Decidable (SwitchSafe p ch t sp) := by
  unfold SwitchSafe; infer_instance

instance (a : Action c) : Decidable (ForkSafe p ch t a) := by
  cases a <;> unfold ForkSafe <;> infer_instance

end Decide

/-- Perform a step of parent or child. -/
def Forked.exec (p ch : ℕ) (t : Forked c) (a : Action c) : Option (Forked c) :=
  if BetweenTwo p ch a ∧ a.enabled t.vm then
    (a.exec t.vm).toOption.map fun s =>
      ⟨s, t.flatAfter p a, t.writerAfter p a, t.swappedAfter a⟩
  else none

theorem Forked.exec_step {t t' : Forked c} (h : t.exec p ch a = some t') :
    ForkStep p ch t a t' := by
  unfold Forked.exec at h
  split_ifs at h with hen
  obtain ⟨s, hex, rfl⟩ := Option.map_eq_some_iff.1 h
  exact ⟨hen.1, ⟨hen.2, toOption_eq_some.1 hex⟩, rfl, rfl, rfl⟩

/-- Perform a harmless step. -/
def Forked.safeExec (p ch : ℕ) (t : Forked c) (a : Action c) : Option (Forked c) :=
  if ForkSafe p ch t a then t.exec p ch a else none

theorem Forked.safeExec_step {t t' : Forked c} (h : t.safeExec p ch a = some t') :
    ForkStep p ch t a t' ∧ ForkSafe p ch t a := by
  unfold Forked.safeExec at h
  split_ifs at h with hsafe
  exact ⟨Forked.exec_step h, hsafe⟩

/-- The states that parent and child reach by any steps. -/
def AnyForkReach (p ch : ℕ) (t : Forked c) : Prop :=
  Reach (ForkInit p ch) (ForkStep p ch) t

end Nachos
