import Nachos.VM.Content

/-!
# Demand loading

What a page holds when `load` has fetched it for the first time, in any state of any run, with
`Fork`s and with any number of address spaces.

* `loaded_byte`: every byte of the page, in terms of the executable and of what the frame held
  before;
* `demand_loading`: the bytes of code and initialised data are those of the executable, each time a
  page that was never written is fetched;
* `fresh_zero_iff`: when the other bytes are zero.
-/

namespace Nachos

open Function Transition

variable {c : Sizes} {s s' : VM c} {written : List PTRef}

/-- A page fetched for the first time. -/
theorem loaded_byte (hS : Shared none s) {sp vpn : ℕ} (hc : s.current = some sp)
    (hE : s.HasEntry ⟨sp, vpn⟩) (hv : (s.pageTable ⟨sp, vpn⟩).valid = false)
    (hd : (s.pageTable ⟨sp, vpn⟩).dirty = false) (hl : load sp vpn s = .ok s') :
    (s'.pageTable ⟨sp, vpn⟩).valid = true ∧
    (s'.pageTable ⟨sp, vpn⟩).physicalPage = (takenFrame s : ℕ) ∧
    ∀ o < PageSize, s'.mainMemory (takenFrame s * PageSize + o) =
      (imageByte s ⟨sp, vpn⟩ o).getD (restByte s ⟨sp, vpn⟩ o) := by
  rcases hS.load hc hE with ⟨s'', heq, -, -, -, hserved⟩ | ⟨e, heq, -⟩
  · rw [heq] at hl
    cases hl
    obtain ⟨hval, hp, hbyte⟩ := hserved.byte hv fun hd' => by simp [hd] at hd'
    refine ⟨hval, hp, fun o ho => ?_⟩
    have hsrc : sourceByte s ⟨sp, vpn⟩ o = imageByte s ⟨sp, vpn⟩ o := by
      rw [sourceByte, hd, if_neg (by simp)]
    rw [← hsrc]
    exact (hbyte o ho).resolve_right fun h => by simp [hd] at h
  · rw [heq] at hl
    cases hl

/-! ### Code and initialised data -/

/-- The bytes of an executable that are loaded: those at virtual addresses below this. -/
def NoffHeader.imageSize (noffH : NoffHeader) : ℕ := noffH.code.size + noffH.initData.size

/-- The limits of the constructor: a page with a byte of code or data is read from the file. -/
theorem ofHeader_div_lt (noffH : NoffHeader) (fn : String) {a : ℕ} (ha : a < noffH.imageSize) :
    a / PageSize < (AddrSpace.ofHeader noffH fn).noInitData := by
  have h1 := div_lt_divRoundUp ha
  have h2 := divRoundUp_add_le noffH.code.size noffH.initData.size
  exact Nat.lt_of_lt_of_le h1 h2

/-- A page that is not read from the file has no byte of code or data. -/
theorem imageSize_le_of_ofHeader (noffH : NoffHeader) (fn : String) {vpn : ℕ}
    (h : (AddrSpace.ofHeader noffH fn).noInitData ≤ vpn) : noffH.imageSize ≤ vpn * PageSize := by
  by_contra hlt
  have := ofHeader_div_lt noffH fn (Nat.lt_of_not_le hlt)
  rw [Nat.mul_div_cancel vpn (by decide)] at this
  omega

/-- Every address space was made from the file that `load` opens for it. -/
def FromFiles (s : VM c) : Prop :=
  ∀ sp < s.numSpaces, ∃ executable, s.files (s.spaces sp).filename = some executable ∧
    s.spaces sp = .ofHeader executable.noffHeader (s.spaces sp).filename

theorem FromFiles.congr (h : FromFiles s) (hsp : s'.spaces = s.spaces)
    (hn : s'.numSpaces = s.numSpaces) (hfi : s'.files = s.files) : FromFiles s' := by
  unfold FromFiles
  rw [hsp, hn, hfi]
  exact h

theorem FromFiles.addSpace (h : FromFiles s) {space : AddrSpace} {executable : File}
    (hfile : s.files space.filename = some executable)
    (hspace : space = .ofHeader executable.noffHeader space.filename)
    (table : ℕ → TranslationEntry) : FromFiles (s.addSpace space table) := by
  intro sp hsp
  by_cases hne : sp = s.numSpaces
  · subst hne
    simp only [VM.addSpace, update_self]
    exact ⟨executable, hfile, hspace⟩
  · have hlt : sp < s.numSpaces + 1 := hsp
    obtain ⟨ex, h1, h2⟩ := h sp (by omega)
    simp only [VM.addSpace, update_of_ne hne]
    exact ⟨ex, h1, h2⟩

/-- The space that runs has been made. -/
def CurrentMade (s : VM c) : Prop := ∀ sp, s.current = some sp → sp < s.numSpaces

/-- In every run the spaces come from their files, those that `Fork` copies too. -/
theorem AnyReachable.fromFiles (h : AnyReachable s) : FromFiles s ∧ CurrentMade s := by
  refine Reach.invariant_of (J := fun s => Shared none s)
    (I := fun s => FromFiles s ∧ CurrentMade s)
    (fun s hs => (show AnyReachable s from hs).shared.1) ?_ ?_ h
  · rintro s ⟨files, swapFile, words, words', fresh, rfl⟩
    refine ⟨fun sp hsp => absurd hsp (Nat.not_lt_zero sp), fun sp hc => ?_⟩
    cases hc
  · rintro s a s' hS ⟨hf, hrun⟩ hst
    have hkeep : SameSpaces s s' → FromFiles s' ∧ CurrentMade s' := by
      intro hsame
      refine ⟨hf.congr hsame.spaces hsame.numSpaces hsame.files, fun sp hc => ?_⟩
      rw [hsame.numSpaces]
      exact hrun sp (hsame.current ▸ hc)
    cases a with
    | none =>
      obtain ⟨p, hc, rfl⟩ := hst
      obtain ⟨executable, hfile, hspace⟩ := hf p (hrun p hc)
      exact ⟨hf.addSpace hfile hspace _, fun sp hsp => Nat.lt_succ_of_lt (hrun sp hsp)⟩
    | some a =>
      have hen := hst.1
      cases Step.stepped hst with
      | create fn executable hfile hm =>
        exact ⟨hf.addSpace hfile rfl _, fun sp hsp => Nat.lt_succ_of_lt (hrun sp hsp)⟩
      | access a addr size w o s' _ hr => exact hkeep (hS.accessMem hr).2
      | switchOut sp fresh hc =>
        have hb := saveStateLoop_bitsOnly sp (List.finRange c.TLBSize) s
        refine ⟨hf.congr hb.spaces hb.numSpaces hb.files, fun sp' hc' => ?_⟩
        cases hc'
      | switchIn sp fresh hc =>
        refine ⟨hf, fun sp' hc' => ?_⟩
        cases hc'
        exact hen.2

theorem Reachable.fromFiles (h : Reachable s) : FromFiles s := h.any.fromFiles.1

/-! ### Pages that were never written -/

/-- The page that a step writes to: that of a `WriteMem` which finds it in the TLB. -/
def writtenPage (s : VM c) : Action c → Option PTRef
  | .write addr _ _ =>
    match s.current with
    | some sp => if ∃ i, s.Maps i (pageOf addr) then some ⟨sp, pageOf addr⟩ else none
    | none => none
  | _ => none

/-- A state together with the pages written so far. -/
structure Tracked (c : Sizes) where
  vm : VM c
  written : List PTRef

/-- A step, with the page it writes put on record. -/
def TrackedStep (t : Tracked c) (a : Action c) (t' : Tracked c) : Prop :=
  Step t.vm a t'.vm ∧ t'.written = (writtenPage t.vm a).toList ++ t.written

/-- The states of all runs, with the pages that the run has written. -/
def TrackedReachable (t : Tracked c) : Prop :=
  Reach (fun t : Tracked c => Booted t.vm ∧ t.written = []) TrackedStep t

theorem TrackedReachable.reachable {t : Tracked c} (h : TrackedReachable t) : Reachable t.vm :=
  Reach.simulation Tracked.vm (fun _ h0 => h0.1)
    (fun _ a _ _ hst => Or.inr ⟨a, hst.1⟩) h

/-- What the pages that were never written should hold: the bytes of the executable. -/
def imageSpec (written : List PTRef) (s : VM c) : PTRef → ℕ → Option Byte := fun r o =>
  if r ∈ written ∨ PageSize ≤ o then none
  else match s.files (s.spaces r.space).filename with
    | some executable =>
      if r.vpn * PageSize + o < executable.noffHeader.imageSize then
        executable.get? (executable.noffHeader.code.inFileAddr + PageSize * r.vpn + o)
      else none
    | none => none

/-- Such a byte is where `load` reads it. -/
theorem imageSpec_imageByte (hff : FromFiles s) (hu : Unmade s) {r : PTRef} {o : ℕ} {b : Byte}
    (hE : s.HasEntry r) (hb : imageSpec written s r o = some b) : imageByte s r o = some b := by
  obtain ⟨executable, hfile, hspace⟩ := hff r.space (hu.space_lt hE)
  unfold imageSpec at hb
  split_ifs at hb with hw
  rw [hfile] at hb
  simp only at hb
  split_ifs at hb with hlt
  have hdiv := ofHeader_div_lt executable.noffHeader (s.spaces r.space).filename hlt
  rw [← hspace] at hdiv
  have ho : o < PageSize := by omega
  have hpage : (r.vpn * PageSize + o) / PageSize = r.vpn := by
    unfold PageSize at *
    omega
  rw [hpage] at hdiv
  rw [imageByte, if_pos (Or.inr hdiv), hfile, Option.bind_some, hb]

theorem imageSpec_congr (hsp : s'.spaces = s.spaces) (hfi : s'.files = s.files)
    (written : List PTRef) : imageSpec written s' = imageSpec written s := by
  funext r o
  simp only [imageSpec, hsp, hfi]

theorem imageSpec_mono {written' : List PTRef} (hsub : ∀ r ∈ written, r ∈ written') {r : PTRef}
    {o : ℕ} {b : Byte} (hb : imageSpec written' s r o = some b) :
    r ∉ written' ∧ imageSpec written s r o = some b := by
  unfold imageSpec at hb ⊢
  split_ifs at hb with h'
  refine ⟨fun hr => h' (Or.inl hr), ?_⟩
  rw [if_neg fun h => h' (h.imp (hsub r) id)]
  exact hb

/-- Nothing but dirty bits and the TLB has changed: the dirty bits do not matter, since the bytes
are in the file. -/
theorem Content.image_of_same (h : Content (imageSpec written s) s) (hff : FromFiles s')
    (hu : Unmade s') (hsp : s'.spaces = s.spaces) (hfi : s'.files = s.files)
    (hmem : s'.mainMemory = s.mainMemory) (hsw : s'.swapFile = s.swapFile)
    (hpt : ∀ r, (s'.pageTable r).valid = (s.pageTable r).valid ∧
      (s'.pageTable r).physicalPage = (s.pageTable r).physicalPage) :
    Content (imageSpec written s') s' := by
  have hE : ∀ r, s'.HasEntry r → s.HasEntry r := fun r hr => by
    simpa only [VM.HasEntry, hsp] using hr
  refine ⟨?_, ?_, fun r o b hr _ hb => Or.inl (imageSpec_imageByte hff hu hr hb)⟩
  · intro r f o b hr hv hp ho hb
    rw [imageSpec_congr hsp hfi] at hb
    rw [hmem]
    exact h.mem r f o b (hE r hr) ((hpt r).1 ▸ hv) ((hpt r).2 ▸ hp) ho hb
  · intro r k o b hr hv hp ho hb
    rw [imageSpec_congr hsp hfi] at hb
    rw [slotByte, hsw]
    exact h.swap r k o b (hE r hr) ((hpt r).1 ▸ hv) ((hpt r).2 ▸ hp) ho hb

theorem Content.image_addSpace (h : Content (imageSpec written s) s) (space : AddrSpace)
    (hff : FromFiles (s.addSpace space freshEntry)) (hu : Unmade (s.addSpace space freshEntry)) :
    Content (imageSpec written (s.addSpace space freshEntry)) (s.addSpace space freshEntry) := by
  have hspec : ∀ r o, r.space ≠ s.numSpaces →
      imageSpec written (s.addSpace space freshEntry) r o = imageSpec written s r o := by
    intro r o hne
    simp only [imageSpec, VM.addSpace, update_of_ne hne]
  refine ⟨?_, ?_, fun r o b hr _ hb => Or.inl (imageSpec_imageByte hff hu hr hb)⟩
  · intro r f o b hr hv hp ho hb
    rcases addSpace_entry space freshEntry r hr with ⟨-, -, heq⟩ | ⟨hne, hE, heq⟩
    · rw [heq] at hv
      cases hv
    · rw [heq] at hv hp
      rw [hspec r o hne] at hb
      exact h.mem r f o b hE hv hp ho hb
  · intro r k o b hr hv hp ho hb
    rcases addSpace_entry space freshEntry r hr with ⟨-, -, heq⟩ | ⟨hne, hE, heq⟩
    · rw [heq] at hp
      have : (-1 : ℤ) = (k : ℕ) := hp
      omega
    · rw [heq] at hv hp
      rw [hspec r o hne] at hb
      exact h.swap r k o b hE hv hp ho hb

/-- Pages that were never written hold the bytes of their executable. -/
theorem TrackedReachable.content {t : Tracked c} (h : TrackedReachable t) :
    Content (imageSpec t.written t.vm) t.vm := by
  refine Reach.invariant_of (J := fun t : Tracked c => Reachable t.vm)
    (I := fun t : Tracked c => Content (imageSpec t.written t.vm) t.vm)
    (fun t ht => (show TrackedReachable t from ht).reachable) ?_ ?_ h
  · rintro ⟨s, w⟩ ⟨⟨files, swapFile, words, words', fresh, rfl⟩, rfl⟩
    have hE : ∀ r, ¬ (boot files swapFile words words' fresh : VM c).HasEntry r :=
      fun r hr => absurd hr (Nat.not_lt_zero _)
    exact ⟨fun r _ _ _ hr => absurd hr (hE r), fun r _ _ _ hr => absurd hr (hE r),
      fun r _ _ hr => absurd hr (hE r)⟩
  · rintro ⟨s, w⟩ a ⟨s', w'⟩ hreach hC ⟨hst, hw'⟩
    change Reachable s at hreach
    have hreach' : Reachable s' := .step a hreach hst
    obtain ⟨hF, hu⟩ := hreach.frames
    have hff' := hreach'.fromFiles
    have hu' := hreach'.frames.2
    simp only at hw' hst hC ⊢
    subst hw'
    have hsub : ∀ r ∈ w, r ∈ (writtenPage s a).toList ++ w :=
      fun r hr => List.mem_append_right _ hr
    rcases step_cases hF hst with
      ⟨sp, addr, size, v, hc, hE, ha, -, hact⟩ | ⟨fn, ex, rfl, -, -, rfl⟩ |
      ⟨sp, fresh, s₁, rfl, -, hb, -, rfl⟩ | ⟨sp, fresh, rfl, -, rfl⟩
    · rw [imageSpec_congr ha.sameSpaces.spaces ha.sameSpaces.files]
      rcases hC.accessed ha hF hreach.slots hc hE with ⟨-, hC'⟩ | ⟨hmaps, hC'⟩
      · exact hC'.mono fun r o b hb => (imageSpec_mono hsub hb).2
      · rcases hact with ⟨rfl, rfl⟩ | ⟨value, rfl, rfl⟩
        · exact hC'.mono fun r o b hb => (imageSpec_mono hsub hb).2
        · -- the page that was written is on record
          refine hC'.mono fun r o b hb => ?_
          obtain ⟨hr, hb⟩ := imageSpec_mono hsub hb
          have hne : r ≠ ⟨sp, pageOf addr⟩ := by
            rintro rfl
            refine hr (List.mem_append_left _ ?_)
            simp [writtenPage, hc, hmaps]
          simp only [afterAccess, overwrite, hne, false_and, if_false]
          exact hb
    · exact hC.image_addSpace _ hff' hu'
    · exact hC.image_of_same hff' hu' hb.spaces hb.files hb.mainMemory hb.swapFile
        fun r => ⟨hb.valid r, hb.physicalPage r⟩
    · exact hC.image_of_same hff' hu' rfl rfl rfl rfl fun r => ⟨rfl, rfl⟩

/-- **Demand loading reproduces the executable.**  In every state of every run, with `Fork`s and
any number of address spaces: after `load` of a page that is neither valid nor dirty, each byte at
a virtual address `a` of code or initialised data is byte `code.inFileAddr + a` of the file; and
without `Fork`s it is so in every later state in which a page that was never written is in memory.
In particular the limits of the constructor make `load` read every page with such a byte from the
file. -/
theorem demand_loading {s : VM c} (h : AnyReachable s) {sp : ℕ} {executable : File}
    (hsp : sp < s.numSpaces) (hfile : s.files (s.spaces sp).filename = some executable) :
    (∀ vpn s', s.current = some sp → s.HasEntry ⟨sp, vpn⟩ →
      (s.pageTable ⟨sp, vpn⟩).valid = false → (s.pageTable ⟨sp, vpn⟩).dirty = false →
      load sp vpn s = .ok s' →
      ∃ f : Fin c.NumPhysPages, (s'.pageTable ⟨sp, vpn⟩).valid = true ∧
        (s'.pageTable ⟨sp, vpn⟩).physicalPage = (f : ℕ) ∧
        ∀ a b, a < executable.noffHeader.imageSize → a / PageSize = vpn →
          executable.get? (executable.noffHeader.code.inFileAddr + a) = some b →
          s'.mainMemory (f * PageSize + a % PageSize) = b) ∧
    (∀ written, TrackedReachable ⟨s, written⟩ → ∀ vpn (f : Fin c.NumPhysPages),
      s.HasEntry ⟨sp, vpn⟩ → ⟨sp, vpn⟩ ∉ written →
      (s.pageTable ⟨sp, vpn⟩).valid = true → (s.pageTable ⟨sp, vpn⟩).physicalPage = (f : ℕ) →
      ∀ a b, a < executable.noffHeader.imageSize → a / PageSize = vpn →
        executable.get? (executable.noffHeader.code.inFileAddr + a) = some b →
        s.mainMemory (f * PageSize + a % PageSize) = b) ∧
    (∀ a < executable.noffHeader.imageSize, a / PageSize < (s.spaces sp).noInitData) := by
  obtain ⟨executable', hfile', hspace⟩ := h.fromFiles.1 sp hsp
  rw [hfile] at hfile'
  cases hfile'
  have hlimit : ∀ a < executable.noffHeader.imageSize,
      a / PageSize < (s.spaces sp).noInitData := by
    intro a ha
    rw [hspace]
    exact ofHeader_div_lt _ _ ha
  have hmod : ∀ a, a % PageSize < PageSize := fun a => Nat.mod_lt a (by decide)
  have hpos : ∀ a vpn k, a / PageSize = vpn → k + PageSize * vpn + a % PageSize = k + a := by
    rintro a vpn k rfl
    rw [Nat.add_assoc, Nat.div_add_mod]
  refine ⟨?_, ?_, hlimit⟩
  · intro vpn s' hc hE hv hd hl
    obtain ⟨hval, hp, hbyte⟩ := loaded_byte h.shared.1 hc hE hv hd hl
    refine ⟨takenFrame s, hval, hp, fun a b ha hvpn hb => ?_⟩
    have himage : imageByte s ⟨sp, vpn⟩ (a % PageSize) = some b := by
      rw [imageByte, if_pos (Or.inr (hvpn ▸ hlimit a ha)), hfile, Option.bind_some,
        hpos a vpn _ hvpn, hb]
    rw [hbyte _ (hmod a), himage]
    rfl
  · intro written ht vpn f hE hw hv hp a b ha hvpn hb
    refine ht.content.mem _ f _ b hE hv hp (hmod a) ?_
    have hlt : vpn * PageSize + a % PageSize < executable.noffHeader.imageSize := by
      rw [← hvpn, Nat.mul_comm, Nat.div_add_mod]
      exact ha
    rw [imageSpec, if_neg (not_or.2 ⟨hw, Nat.not_le.2 (hmod a)⟩), hfile]
    simp only [hlt, if_true]
    rw [hpos a vpn _ hvpn, hb]

/-- A program that has just forked fetches its first page, with byte 5 of the file's code. -/
theorem demand_loading_smallFork :
    ∃ s' : VM machineH, load 0 0 (copyAddrSpace 0 smallStart) = .ok s' ∧
      ∃ f : Fin machineH.NumPhysPages, (s'.pageTable ⟨0, 0⟩).physicalPage = (f : ℕ) ∧
        s'.mainMemory (f * PageSize + 5) = 7 := by
  have hload : ∃ s', load 0 0 (copyAddrSpace 0 smallStart) = .ok s' := ⟨_, rfl⟩
  obtain ⟨s', hs'⟩ := hload
  obtain ⟨f, -, hp, hbyte⟩ := (demand_loading smallFork_reachable
    (show 0 < (copyAddrSpace 0 smallStart).numSpaces from Nat.zero_lt_succ 1)
    (show (copyAddrSpace 0 smallStart).files _ = some smallNoff from rfl)).1 0 s' rfl
    (show 0 < (smallStart.spaces 0).numPages by decide +kernel) rfl rfl hs'
  exact ⟨s', hs', f, hp, hbyte 5 7 (by decide +kernel) rfl (by decide +kernel)⟩

/-! ### Uninitialised data and stack -/

/-- All bytes of the page at virtual addresses from `limit` on are zero. -/
def FreshZero (s : VM c) (r : PTRef) (limit : ℕ) : Prop :=
  ∀ f : Fin c.NumPhysPages, (s.pageTable r).physicalPage = (f : ℕ) → ∀ o < PageSize,
    limit ≤ r.vpn * PageSize + o → s.mainMemory (f * PageSize + o) = 0

/-- Byte `o` of the frame that `load` takes is zero: the frame was never used, or the victim has a
zero there. -/
def OldByteZero (s : VM c) (o : ℕ) : Prop :=
  (∃ f : Fin c.NumPhysPages, s.MemBitMap.isSet f = false) ∨
    s.mainMemory (clockVictim s * PageSize + o) = 0

theorem oldByteZero_iff (h : FreeZero s) {o : ℕ} (ho : o < PageSize) :
    OldByteZero s o ↔ s.mainMemory (takenFrame s * PageSize + o) = 0 := by
  unfold OldByteZero takenFrame
  rcases hfind : s.MemBitMap.find with ⟨_ | f, m⟩
  · have hfull := (BitMap.find_none hfind).1
    constructor
    · rintro (⟨f, hf⟩ | hzero)
      · simp [hfull f] at hf
      · exact hzero
    · exact Or.inr
  · have hf := (BitMap.find_some hfind).1
    exact ⟨fun _ => h f hf o ho, fun _ => Or.inl ⟨f, hf⟩⟩

/-- **Fresh memory is zero exactly when no branch of `load` shows old bytes.**  A page of
uninitialised data or stack is zero iff its frame comes from a victim taken for clean or held zeros
(an unused frame does); in a page read from the executable, the bytes after code and data are zero
iff each is zero in the file or, past the end of the file, was zero in the frame. -/
theorem fresh_zero_iff {s s' : VM c} (h : AnyReachable s) {sp vpn : ℕ} {executable : File}
    (hc : s.current = some sp) (hE : s.HasEntry ⟨sp, vpn⟩)
    (hfile : s.files (s.spaces sp).filename = some executable)
    (hv : (s.pageTable ⟨sp, vpn⟩).valid = false) (hd : (s.pageTable ⟨sp, vpn⟩).dirty = false)
    (hl : load sp vpn s = .ok s') :
    FreshZero s' ⟨sp, vpn⟩ executable.noffHeader.imageSize ↔
      (vpn < (s.spaces sp).noInitData → ∀ o < PageSize,
        executable.noffHeader.imageSize ≤ vpn * PageSize + o →
        match executable.get? (executable.noffHeader.code.inFileAddr + PageSize * vpn + o) with
        | some b => b = 0
        | none => OldByteZero s o) ∧
      ((s.spaces sp).noInitData ≤ vpn → CleanVictim s ∨ ∀ o < PageSize, OldByteZero s o) := by
  obtain ⟨hS, hu⟩ := h.shared
  obtain ⟨executable', hfile', hspace⟩ := h.fromFiles.1 sp (hu.space_lt hE)
  rw [hfile] at hfile'
  cases hfile'
  have hinit : (s.spaces sp).initData ≤ (s.spaces sp).noInitData := by
    rw [hspace]
    exact Nat.le_add_right _ _
  obtain ⟨-, hp, hbyte⟩ := loaded_byte hS hc hE hv hd hl
  have hz := hS.free
  have hfresh : FreshZero s' ⟨sp, vpn⟩ executable.noffHeader.imageSize ↔ ∀ o < PageSize,
      executable.noffHeader.imageSize ≤ vpn * PageSize + o →
      s'.mainMemory (takenFrame s * PageSize + o) = 0 := by
    refine ⟨fun hfz => hfz _ hp, fun hall f hf => ?_⟩
    have hft : f = takenFrame s := Fin.ext (by omega)
    rw [hft]
    exact hall
  rw [hfresh]
  by_cases hvpn : vpn < (s.spaces sp).noInitData
  · -- a page of the file
    have hread : ∀ o < PageSize, s'.mainMemory (takenFrame s * PageSize + o) = 0 ↔
        match executable.get? (executable.noffHeader.code.inFileAddr + PageSize * vpn + o) with
        | some b => b = 0
        | none => OldByteZero s o := by
      intro o ho
      have hrest : restByte s ⟨sp, vpn⟩ o = s.mainMemory (takenFrame s * PageSize + o) :=
        if_neg fun h => absurd hvpn (Nat.not_lt.2 h.2.2.1)
      rw [hbyte o ho, hrest, imageByte, if_pos (Or.inr hvpn), hfile, Option.bind_some]
      cases executable.get? (executable.noffHeader.code.inFileAddr + PageSize * vpn + o) with
      | some b => rfl
      | none => exact (oldByteZero_iff hz ho).symm
    constructor
    · exact fun hall => ⟨fun _ o ho hlim => (hread o ho).1 (hall o ho hlim), fun hle => by omega⟩
    · exact fun hcond o ho hlim => (hread o ho).2 (hcond.1 hvpn o ho hlim)
  · -- a page without any byte of the file
    have hle : (s.spaces sp).noInitData ≤ vpn := Nat.le_of_not_lt hvpn
    have hlim : ∀ o, executable.noffHeader.imageSize ≤ vpn * PageSize + o := by
      intro o
      rw [hspace] at hle
      exact (imageSize_le_of_ofHeader _ _ hle).trans (Nat.le_add_right _ _)
    have hbyte : ∀ o < PageSize, s'.mainMemory (takenFrame s * PageSize + o) =
        if CleanVictim s then 0 else s.mainMemory (takenFrame s * PageSize + o) := by
      intro o ho
      have hno : ¬ (vpn < (s.spaces sp).initData ∨ vpn < (s.spaces sp).noInitData) := by omega
      rw [hbyte o ho, imageByte, if_neg hno, Option.getD_none, restByte]
      simp only [hd, hinit.trans hle, hle, true_and]
    by_cases hclean : CleanVictim s
    · refine ⟨fun _ => ⟨fun hlt => absurd hlt hvpn, fun _ => Or.inl hclean⟩, fun _ o ho _ => ?_⟩
      rw [hbyte o ho, if_pos hclean]
    · have hold : ∀ o < PageSize, s'.mainMemory (takenFrame s * PageSize + o) = 0 ↔
          OldByteZero s o := by
        intro o ho
        rw [hbyte o ho, if_neg hclean]
        exact (oldByteZero_iff hz ho).symm
      constructor
      · intro hall
        exact ⟨fun hlt => absurd hlt hvpn,
          fun _ => Or.inr fun o ho => (hold o ho).1 (hall o ho (hlim o))⟩
      · intro hcond o ho _
        exact (hold o ho).2 (((hcond.2 hle).resolve_left hclean) o ho)

/-- Four stack pages are written, one for each frame; each write first loads its page. -/
def fillFrames : List (Action machineH) :=
  [.write 128 1 255, .write 128 1 255, .write 256 1 255, .write 256 1 255,
    .write 384 1 255, .write 384 1 255, .write 512 1 255, .write 512 1 255]

/-- The next stack page shows what the program wrote to another page. -/
theorem fresh_page_not_zero :
    ∃ (s s' : VM machineH) (executable : File), Reachable s ∧ s.current = some 0 ∧
      s.HasEntry ⟨0, 5⟩ ∧ s.files (s.spaces 0).filename = some executable ∧
      (s.pageTable ⟨0, 5⟩).valid = false ∧ (s.pageTable ⟨0, 5⟩).dirty = false ∧
      load 0 5 s = .ok s' ∧ ¬ FreshZero s' ⟨0, 5⟩ executable.noffHeader.imageSize := by
  obtain ⟨s, hs, ⟨hc, hE, hle, hv, hd⟩, hload⟩ := Fallible.exists_ok
    (execAll fillFrames smallStart)
    (fun s => (s.current = some 0 ∧ 5 < (s.spaces 0).numPages ∧ (s.spaces 0).noInitData ≤ 5 ∧
      (s.pageTable ⟨0, 5⟩).valid = false ∧ (s.pageTable ⟨0, 5⟩).dirty = false) ∧
      ((load 0 5 s).toOption.any fun s' => decide ((s'.pageTable ⟨0, 5⟩).physicalPage = 0 ∧
        s'.mainMemory 0 ≠ 0)) = true)
    (by decide +kernel)
  obtain ⟨s', hl, hp, hne⟩ := Fallible.exists_ok (load 0 5 s) _ hload
  have hreach : Reachable s :=
    smallStart_reachable.execAll (by simp [fillFrames, Action.enabled]) hs
  have hlt : 0 < s.numSpaces :=
    hreach.frames.2.space_lt (show s.HasEntry ⟨0, 5⟩ from hE)
  obtain ⟨executable, hfile, hspace⟩ := hreach.fromFiles 0 hlt
  rw [hspace] at hle
  refine ⟨s, s', executable, hreach, hc, hE, hfile, hv, hd, hl, fun hz => hne ?_⟩
  exact hz ⟨0, by decide⟩ hp 0 (by decide) (imageSize_le_of_ofHeader _ _ hle)

theorem fresh_zero_smallStart :
    ∃ s' : VM machineH, load 0 5 smallStart = .ok s' ∧
      FreshZero s' ⟨0, 5⟩ smallNoff.noffHeader.imageSize := by
  have hload : ∃ s', load 0 5 smallStart = .ok s' := ⟨_, rfl⟩
  obtain ⟨s', hs'⟩ := hload
  have hlimit : (smallStart.spaces 0).noInitData = 2 := by decide +kernel
  refine ⟨s', hs', (fresh_zero_iff smallStart_reachable.any rfl
    (show 5 < (smallStart.spaces 0).numPages by decide +kernel)
    (show smallStart.files _ = some smallNoff from rfl) rfl rfl hs').2 ⟨?_, ?_⟩⟩
  · intro hlt
    omega
  · exact fun _ => Or.inr fun o _ => Or.inl ⟨⟨0, by decide⟩, by decide⟩

end Nachos
