import Nachos.VM.Loading

/-!
# The two loaders

Without `VM`, the constructor of `AddrSpace` gives every page a frame and reads the two segments of
the executable at once, each into pages of its own: the first page of initialised data is the one
after the last page of code.  With `VM`, `load` reads a page when it is needed, at its distance from
the start of the code.

* `newAddrSpaceNoVM`: the constructor without `VM`;
* `newAddrSpaceNoVM_byte`, `load_byte`: the byte that each loader puts at an address;
* `same_image_iff`: for which sizes of the segments they build the same image;
* `data_moved_up`: an executable for which they do not.
-/

namespace Nachos

variable {c : Sizes} {n : ℕ}

/-! ### The constructor without `VM` -/

/-- The `MemBitMap->Find()` of the first loop, for `k` pages; `none` is the `-1` of the source. -/
def findFrames : ℕ → BitMap n → List (Option (Fin n)) × BitMap n
  | 0, m => ([], m)
  | k + 1, m => ((m.find.1 :: (findFrames k m.find.2).1), (findFrames k m.find.2).2)

/-- The entry that the first loop makes. -/
def residentEntry (frames : List (Option (Fin n))) (index : ℕ) : TranslationEntry :=
  { freshEntry index with
    physicalPage := match frames.getD index none with
      | some f => (f : ℕ)
      | none => -1
    valid := true }

/-- `executable->ReadAt(&(machine->mainMemory[physicalPage * PageSize]), PageSize, x)`: frame `-1`
lies before the memory. -/
def readPage (executable : File) (physicalPage : ℤ) (x : ℕ) (mem : ℕ → Byte) :
    Except Fault (ℕ → Byte) :=
  if 0 ≤ physicalPage then
    .ok (executable.readAt mem (physicalPage.toNat * PageSize) PageSize x)
  else .error .wildAccess

/-- The loop over the pages of a segment: `count` pages from `index` on. -/
def readSegment (executable : File) (table : ℕ → TranslationEntry) :
    ℕ → ℕ → ℕ → (ℕ → Byte) → Except Fault (ℕ → Byte)
  | 0, _, _, mem => .ok mem
  | count + 1, index, x, mem => do
    let mem ← readPage executable (table index).physicalPage x mem
    readSegment executable table count (index + 1) (x + PageSize) mem

/-- The part of the constructor without `VM` that copies the code and data segments into memory. -/
def readImage (executable : File) (table : ℕ → TranslationEntry) (mem : ℕ → Byte) :
    Except Fault (ℕ → Byte) := do
  let noffH := executable.noffHeader
  let codeNumPages := divRoundUp noffH.code.size PageSize
  let segmentNumPages := divRoundUp noffH.initData.size PageSize
  let mem ← readSegment executable table codeNumPages 0 noffH.code.inFileAddr mem
  if 0 < noffH.initData.size then
    readSegment executable table segmentNumPages codeNumPages noffH.initData.inFileAddr mem
  else .ok mem

/-- `AddrSpace::AddrSpace(OpenFile*, string)` without `VM`. -/
def newAddrSpaceNoVM (executable : File) (fn : String) (s : VM c) : Except Fault (VM c) :=
  let noffH := executable.noffHeader
  if noffH.noffMagic = NOFFMAGIC then do
    let space := AddrSpace.ofHeader noffH fn
    let (frames, MemBitMap) := findFrames space.numPages s.MemBitMap
    let mem ← readImage executable (residentEntry frames) s.mainMemory
    .ok { s.addSpace space (residentEntry frames) with MemBitMap := MemBitMap, mainMemory := mem }
  else .error .notNoff

/-- The byte at virtual address `a` of address space `sp`, in the frame of its page. -/
def VM.byteAt (s : VM c) (sp a : ℕ) : Byte :=
  s.mainMemory ((s.pageTable ⟨sp, a / PageSize⟩).physicalPage.toNat * PageSize + a % PageSize)

/-! ### What the constructor reads -/

variable {k a : ℕ} {executable : File}

/-- With enough free frames, the pages get the first of them. -/
theorem findFrames_eq {m : BitMap n} (h : k ≤ m.numClear) :
    (findFrames k m).1 = (m.clearBits.take k).map some := by
  induction k generalizing m with
  | zero => rfl
  | succ k ih =>
    rw [BitMap.numClear_eq] at h
    obtain ⟨f, l, hl⟩ := List.exists_cons_of_length_pos (by omega : 0 < m.clearBits.length)
    obtain ⟨hfind, hrest⟩ := BitMap.find_clearBits hl
    rw [hl, List.length_cons] at h
    have hk : k ≤ (m.setBit f).numClear := by
      rw [BitMap.numClear_eq, hrest]
      omega
    rw [findFrames, hfind, hl, List.take_succ_cons, List.map_cons]
    dsimp only
    rw [ih hk, hrest]

/-- Pages below `k` have frames of their own. -/
structure OwnFrames (table : ℕ → TranslationEntry) (frame : ℕ → ℕ) (k : ℕ) : Prop where
  page : ∀ i < k, (table i).physicalPage = frame i
  inj : ∀ i < k, ∀ j < k, frame i = frame j → i = j

theorem exists_ownFrames {m : BitMap n} (h : k ≤ m.numClear) :
    ∃ frame, OwnFrames (residentEntry (findFrames k m).1) frame k := by
  rw [BitMap.numClear_eq] at h
  have hget : ∀ i (hi : i < k),
      (findFrames k m).1.getD i none = some (m.clearBits.get ⟨i, by omega⟩) := by
    intro i hi
    rw [findFrames_eq h, List.getD_eq_getElem?_getD, List.getElem?_map, List.getElem?_take_of_lt hi,
      List.getElem?_eq_getElem (by omega)]
    rfl
  refine ⟨fun i => if hi : i < m.clearBits.length then m.clearBits.get ⟨i, hi⟩ else 0, ?_, ?_⟩
  · intro i hi
    rw [dif_pos (by omega)]
    simp only [residentEntry, hget i hi]
  · intro i hi j hj hij
    rw [dif_pos (by omega), dif_pos (by omega)] at hij
    have := List.nodup_iff_injective_get.1 m.nodup_clearBits (Fin.ext hij)
    exact congrArg Fin.val this

/-- The loop puts page after page into the frames, and leaves the other frames alone. -/
theorem readSegment_run (executable : File) {table : ℕ → TranslationEntry} {frame : ℕ → ℕ}
    (h : OwnFrames table frame k) (count index : ℕ) (hk : index + count ≤ k) (x : ℕ)
    (mem : ℕ → Byte) :
    ∃ mem', readSegment executable table count index x mem = .ok mem' ∧
      (∀ j < count, ∀ o < PageSize, mem' (frame (index + j) * PageSize + o) =
        (executable.get? (x + PageSize * j + o)).getD (mem (frame (index + j) * PageSize + o))) ∧
      ∀ i < k, i < index ∨ index + count ≤ i → ∀ o < PageSize,
        mem' (frame i * PageSize + o) = mem (frame i * PageSize + o) := by
  induction count generalizing index x mem with
  | zero => exact ⟨mem, rfl, fun j hj => absurd hj (Nat.not_lt_zero j), fun _ _ _ _ _ => rfl⟩
  | succ count ih =>
    obtain ⟨mem', hrun, hin, hout⟩ := ih (index + 1) (by omega) (x + PageSize)
      (executable.readAt mem (frame index * PageSize) PageSize x)
    have hpage : readPage executable (table index).physicalPage x mem =
        .ok (executable.readAt mem (frame index * PageSize) PageSize x) := by
      unfold readPage
      rw [h.page index (by omega), if_pos (Int.natCast_nonneg _), Int.toNat_natCast]
    -- the frame of another page is not touched by the first turn
    have hother : ∀ i < k, i ≠ index → ∀ o < PageSize,
        executable.readAt mem (frame index * PageSize) PageSize x (frame i * PageSize + o) =
          mem (frame i * PageSize + o) := by
      intro i hi hne o ho
      have hframe : frame i ≠ frame index := fun he => hne (h.inj i hi index (by omega) he)
      refine File.readAt_outside _ _ ?_
      unfold PageSize at *
      omega
    refine ⟨mem', ?_, ?_, ?_⟩
    · rw [readSegment, hpage]
      exact hrun
    · intro j hj o ho
      cases j with
      | zero =>
        rw [Nat.add_zero, hout index (by omega) (Or.inl (by omega)) o ho, File.readAt_of_lt _ _ ho]
        rfl
      | succ j =>
        have := hin j (by omega) o ho
        rw [show index + 1 + j = index + (j + 1) by omega] at this
        rw [this, hother _ (by omega) (by omega) o ho]
        congr 2
        unfold PageSize
        omega
    · intro i hi hrange o ho
      rw [hout i hi (by omega) o ho]
      exact hother i hi (by omega) o ho

/-! ### The bytes of the two images -/

/-- Code from virtual address 0 on, and the initialised data directly after it, in memory and in the
file. -/
structure NoffHeader.Contiguous (noffH : NoffHeader) : Prop where
  code_addr : noffH.code.virtualAddr = 0
  data_addr : noffH.initData.virtualAddr = noffH.code.size
  data_file : noffH.initData.inFileAddr = noffH.code.inFileAddr + noffH.code.size

/-- An object file: the magic number, and code and data after the 40 bytes of the header and before
the end of the file. -/
structure File.IsNoff (executable : File) : Prop where
  magic : executable.noffHeader.noffMagic = NOFFMAGIC
  header : 40 ≤ executable.noffHeader.code.inFileAddr
  image : executable.noffHeader.code.inFileAddr + executable.noffHeader.imageSize ≤
    executable.length

/-- The distance from the start of the code at which the constructor reads the byte for address `a`:
the data begin in the file where the code ends, and in memory on a new page. -/
def NoffHeader.readOffset (noffH : NoffHeader) (a : ℕ) : ℕ :=
  if a < PageSize * divRoundUp noffH.code.size PageSize then a
  else noffH.code.size + (a - PageSize * divRoundUp noffH.code.size PageSize)

theorem File.IsNoff.get? (h : executable.IsNoff) (hk : k < executable.noffHeader.imageSize) :
    executable.get? (executable.noffHeader.code.inFileAddr + k) =
      some (executable.byte (executable.noffHeader.code.inFileAddr + k)) := by
  have := h.image
  exact if_pos (by omega)

theorem le_mul_divRoundUp (k : ℕ) : k ≤ PageSize * divRoundUp k PageSize := by
  unfold divRoundUp PageSize
  split_ifs <;> omega

theorem readOffset_lt {noffH : NoffHeader} (ha : a < noffH.imageSize) :
    noffH.readOffset a < noffH.imageSize := by
  have := le_mul_divRoundUp noffH.code.size
  unfold NoffHeader.readOffset
  split_ifs <;> omega

/-- The pages of the two segments are pages of the address space. -/
theorem segments_le_numPages (noffH : NoffHeader) (fn : String) :
    divRoundUp noffH.code.size PageSize + divRoundUp noffH.initData.size PageSize ≤
      (AddrSpace.ofHeader noffH fn).numPages := by
  simp only [AddrSpace.ofHeader, divRoundUp, PageSize, UserStackSize]
  split_ifs <;> omega

theorem readImage_run (hcon : executable.noffHeader.Contiguous) (hnoff : executable.IsNoff)
    {table : ℕ → TranslationEntry} {frame : ℕ → ℕ} (h : OwnFrames table frame k)
    (hk : divRoundUp executable.noffHeader.code.size PageSize +
      divRoundUp executable.noffHeader.initData.size PageSize ≤ k) (mem : ℕ → Byte) :
    ∃ mem', readImage executable table mem = .ok mem' ∧
      ∀ a < executable.noffHeader.imageSize, mem' (frame (a / PageSize) * PageSize + a % PageSize) =
        executable.byte (executable.noffHeader.code.inFileAddr +
          executable.noffHeader.readOffset a) := by
  obtain ⟨mem₁, hcode, hcode_in, -⟩ := readSegment_run executable h
    (divRoundUp executable.noffHeader.code.size PageSize) 0 (by omega)
    executable.noffHeader.code.inFileAddr mem
  obtain ⟨mem₂, hdata, hdata_in, hdata_out⟩ := readSegment_run executable h _ _ hk
    executable.noffHeader.initData.inFileAddr mem₁
  refine ⟨mem₂, ?_, fun a ha => ?_⟩
  · unfold readImage
    simp only [hcode, bind, Except.bind]
    split_ifs with hsize
    · exact hdata
    · -- an empty segment has no pages
      rw [show executable.noffHeader.initData.size = 0 by omega] at hdata
      exact hdata
  · have ho : a % PageSize < PageSize := Nat.mod_lt a (by decide)
    have hget := hnoff.get? (readOffset_lt ha)
    have hlast := ofHeader_div_lt executable.noffHeader "" ha
    simp only [AddrSpace.ofHeader] at hlast
    by_cases hpage : a / PageSize < divRoundUp executable.noffHeader.code.size PageSize
    · have hoff : executable.noffHeader.readOffset a =
          PageSize * (a / PageSize) + a % PageSize := by
        rw [Nat.div_add_mod]
        exact if_pos ((Nat.div_lt_iff_lt_mul (by decide)).1 hpage |>.trans_eq (Nat.mul_comm _ _))
      have hbyte := hcode_in (a / PageSize) hpage (a % PageSize) ho
      rw [Nat.zero_add, Nat.add_assoc, ← hoff, hget] at hbyte
      rw [hdata_out _ (by omega) (Or.inl hpage) _ ho, hbyte, Option.getD_some]
    · obtain ⟨j, hj⟩ := Nat.exists_eq_add_of_le (Nat.le_of_not_lt hpage)
      have hoff : executable.noffHeader.readOffset a =
          executable.noffHeader.code.size + (PageSize * j + a % PageSize) := by
        have hdiv := Nat.div_add_mod a PageSize
        unfold NoffHeader.readOffset
        rw [hj, Nat.mul_add] at hdiv
        rw [if_neg (by omega)]
        omega
      have hbyte := hdata_in j (by omega) (a % PageSize) ho
      rw [← hj, hcon.data_file, Nat.add_assoc, Nat.add_assoc, ← hoff, hget] at hbyte
      rw [hbyte, Option.getD_some]

/-- **What the constructor without `VM` puts at each address.** -/
theorem newAddrSpaceNoVM_byte (hcon : executable.noffHeader.Contiguous) (hnoff : executable.IsNoff)
    (fn : String) {s : VM c}
    (hclear : (AddrSpace.ofHeader executable.noffHeader fn).numPages ≤ s.MemBitMap.numClear) :
    ∃ s', newAddrSpaceNoVM executable fn s = .ok s' ∧
      ∀ a < executable.noffHeader.imageSize, s'.byteAt s.numSpaces a =
        executable.byte (executable.noffHeader.code.inFileAddr +
          executable.noffHeader.readOffset a) := by
  obtain ⟨frame, hframe⟩ := exists_ownFrames hclear
  have hpages := segments_le_numPages executable.noffHeader fn
  obtain ⟨mem, hread, hbyte⟩ := readImage_run hcon hnoff hframe hpages s.mainMemory
  have hnew : newAddrSpaceNoVM executable fn s = .ok
      { s.addSpace (AddrSpace.ofHeader executable.noffHeader fn) (residentEntry
          (findFrames (AddrSpace.ofHeader executable.noffHeader fn).numPages s.MemBitMap).1) with
        MemBitMap :=
          (findFrames (AddrSpace.ofHeader executable.noffHeader fn).numPages s.MemBitMap).2
        mainMemory := mem } := by
    unfold newAddrSpaceNoVM
    simp only [hnoff.magic, if_true, hread, bind, Except.bind]
  refine ⟨_, hnew, fun a ha => ?_⟩
  have hlast := ofHeader_div_lt executable.noffHeader fn ha
  have hpage := hframe.page (a / PageSize) (hlast.trans_le hpages)
  simp only [VM.byteAt, VM.addSpace, if_true]
  rw [hpage, Int.toNat_natCast]
  exact hbyte a ha

/-- A page of code or data that was never loaded, in a file that opens. -/
theorem load_fromFile {s : VM c} {sp vpn : ℕ} (hE : s.HasEntry ⟨sp, vpn⟩)
    (hv : (s.pageTable ⟨sp, vpn⟩).valid = false) (hd : (s.pageTable ⟨sp, vpn⟩).dirty = false)
    (hfile : s.files (s.spaces sp).filename = some executable)
    (hvpn : vpn < (s.spaces sp).noInitData) :
    load sp vpn s = acquire false { s with numPageFaults := s.numPageFaults + 1 } >>= fun p =>
      updateTLB sp vpn (install ⟨sp, vpn⟩ p.1 (readExecutable executable p.1 vpn p.2)) := by
  have hlt : vpn < (s.spaces sp).numPages := hE
  simp only [load, Nat.not_le.2 hlt, hv, hd, hfile, if_false, Bool.not_false, Bool.and_true,
    if_true]
  split_ifs with hcode
  · exact loadCode_eq ..
  · exact loadInitData_eq ..

/-- With a free frame such a page is loaded. -/
theorem load_ok_of_free {s : VM c} (hF : Frames none s) {sp vpn : ℕ} (hc : s.current = some sp)
    (hE : s.HasEntry ⟨sp, vpn⟩) (hv : (s.pageTable ⟨sp, vpn⟩).valid = false)
    (hd : (s.pageTable ⟨sp, vpn⟩).dirty = false)
    (hfile : s.files (s.spaces sp).filename = some executable)
    (hvpn : vpn < (s.spaces sp).noInitData) (hfree : 0 < s.MemBitMap.numClear) :
    ∃ s', load sp vpn s = .ok s' := by
  rw [BitMap.numClear_eq] at hfree
  obtain ⟨f, l, hl⟩ := List.exists_cons_of_length_pos hfree
  have hfind := (BitMap.find_clearBits hl).1
  have ha : Acquired false { s with numPageFaults := s.numPageFaults + 1 } f
      { s with numPageFaults := s.numPageFaults + 1, MemBitMap := s.MemBitMap.setBit f } :=
    .free f _ hfind
  have hno : ∀ i, ¬ s.Maps i vpn := by
    intro i hm
    have := (hF.mirror hc hm).2.1
    simp [hv] at this
  obtain ⟨s', hs', -⟩ := updateTLB_filled hF (soloVictim_none _ _) hc hE hno hv ha
    (.file executable hd hfile (Or.inl hvpn))
  refine ⟨s', ?_⟩
  have hacq : acquire false { s with numPageFaults := s.numPageFaults + 1 } = .ok (f,
      { s with numPageFaults := s.numPageFaults + 1, MemBitMap := s.MemBitMap.setBit f }) := by
    simp only [acquire, hfind]
  rw [load_fromFile hE hv hd hfile hvpn, hacq]
  exact hs'

/-- A page of code or data of the running space that was never loaded or written, in a reachable
state with a free frame. -/
structure Loadable (executable : File) (sp vpn : ℕ) (t : VM c) : Prop where
  reachable : Reachable t
  made : sp < t.numSpaces
  current : t.current = some sp
  file : t.files (t.spaces sp).filename = some executable
  valid : (t.pageTable ⟨sp, vpn⟩).valid = false
  dirty : (t.pageTable ⟨sp, vpn⟩).dirty = false
  free : 0 < t.MemBitMap.numClear

/-- **What demand loading puts at each address.** -/
theorem load_byte (hnoff : executable.IsNoff) (ha : a < executable.noffHeader.imageSize) {sp : ℕ}
    {t : VM c} (ht : Loadable executable sp (a / PageSize) t) :
    ∃ t', load sp (a / PageSize) t = .ok t' ∧
      t'.byteAt sp a = executable.byte (executable.noffHeader.code.inFileAddr + a) := by
  obtain ⟨hF, -⟩ := ht.reachable.frames
  obtain ⟨executable', hfile, hspace⟩ := ht.reachable.fromFiles sp ht.made
  rw [ht.file] at hfile
  cases hfile
  have hlast : a / PageSize < (t.spaces sp).noInitData := by
    rw [hspace]
    exact ofHeader_div_lt _ _ ha
  have hE : t.HasEntry ⟨sp, a / PageSize⟩ := by
    have := segments_le_numPages executable.noffHeader (t.spaces sp).filename
    rw [hspace] at hlast
    change a / PageSize < (t.spaces sp).numPages
    rw [hspace]
    exact hlast.trans_le this
  obtain ⟨t', hload⟩ := load_ok_of_free hF ht.current hE ht.valid ht.dirty ht.file hlast ht.free
  obtain ⟨-, hpage, hbyte⟩ :=
    loaded_byte ht.reachable.any.shared.1 ht.current hE ht.valid ht.dirty hload
  refine ⟨t', hload, ?_⟩
  rw [VM.byteAt, hpage, Int.toNat_natCast, hbyte (a % PageSize) (Nat.mod_lt a (by decide)),
    imageByte, if_pos (Or.inr hlast), ht.file, Option.bind_some, Nat.add_assoc, Nat.div_add_mod,
    hnoff.get? ha, Option.getD_some]

/-! ### When the images are the same -/

/-- The constructor without `VM`, given a frame for each page, puts at each address of code and data
the byte that `load` puts there. -/
def SameImage (c : Sizes) (executable : File) : Prop :=
  ∀ (fn : String) (s : VM c),
    (AddrSpace.ofHeader executable.noffHeader fn).numPages ≤ s.MemBitMap.numClear →
    ∃ s', newAddrSpaceNoVM executable fn s = .ok s' ∧
      ∀ a < executable.noffHeader.imageSize, ∀ (sp : ℕ) (t : VM c),
        Loadable executable sp (a / PageSize) t →
        ∃ t', load sp (a / PageSize) t = .ok t' ∧ s'.byteAt s.numSpaces a = t'.byteAt sp a

/-- The images are the same for every executable with this header, on every machine. -/
def NoffHeader.LoadersAgree (noffH : NoffHeader) : Prop :=
  ∀ (c : Sizes) (executable : File), executable.noffHeader = noffH → executable.IsNoff →
    SameImage c executable

/-- The data begin on a page boundary, or end on the last page of the code. -/
def NoffHeader.Aligned (noffH : NoffHeader) : Prop :=
  noffH.code.size % PageSize = 0 ∨
    noffH.imageSize ≤ PageSize * divRoundUp noffH.code.size PageSize

theorem readOffset_of_aligned {noffH : NoffHeader} (h : noffH.Aligned) (ha : a < noffH.imageSize) :
    noffH.readOffset a = a := by
  have hle := le_mul_divRoundUp noffH.code.size
  unfold NoffHeader.readOffset
  split_ifs with hpage
  · rfl
  · rcases h with hmod | hfit
    · have : PageSize * divRoundUp noffH.code.size PageSize = noffH.code.size := by
        unfold divRoundUp PageSize at *
        split_ifs <;> omega
      omega
    · omega

theorem sameImage_of_aligned (hcon : executable.noffHeader.Contiguous) (hnoff : executable.IsNoff)
    (h : executable.noffHeader.Aligned) : SameImage c executable := by
  intro fn s hclear
  obtain ⟨s', hnew, heager⟩ := newAddrSpaceNoVM_byte hcon hnoff fn hclear
  refine ⟨s', hnew, fun a ha sp t ht => ?_⟩
  obtain ⟨t', hload, hlazy⟩ := load_byte hnoff ha ht
  refine ⟨t', hload, ?_⟩
  rw [heager a ha, hlazy, readOffset_of_aligned h ha]

/-- A machine on which every name opens the file. -/
def bootWith (c : Sizes) (executable : File) : VM c :=
  boot (fun _ => some executable) none (fun _ => 0) (fun _ => 0) fun _ => freshEntry 0

/-- The same machine when it runs the file. -/
def startWith (c : Sizes) (executable : File) : VM c :=
  { restoreState (fun _ => freshEntry 0)
      ((bootWith c executable).addSpace (.ofHeader executable.noffHeader "") freshEntry) with
    current := some 0 }

theorem bootWith_numClear (c : Sizes) (executable : File) :
    (bootWith c executable).MemBitMap.numClear = c.NumPhysPages := by
  rw [BitMap.numClear_eq, ← List.length_map (f := Fin.val)]
  change ((BitMap.new c.NumPhysPages fun _ => 0).clearBits.map Fin.val).length = _
  rw [BitMap.clearBits_new, List.length_range']

theorem startWith_loadable (c : Sizes) (hnoff : executable.IsNoff) (vpn : ℕ) :
    Loadable executable 0 vpn (startWith c executable) where
  reachable := .step (.switchIn 0 fun _ => freshEntry 0)
    (.step _ (.init ⟨_, _, _, _, _, rfl⟩) (step_create rfl hnoff.magic))
    ⟨⟨rfl, Nat.zero_lt_one⟩, rfl⟩
  made := Nat.zero_lt_one
  current := rfl
  file := rfl
  valid := rfl
  dirty := rfl
  free := (bootWith_numClear c executable).symm ▸ c.frames_pos

/-- On a machine with enough frames, the two loaders can be compared byte by byte. -/
theorem SameImage.byte_eq (h : SameImage c executable) (hcon : executable.noffHeader.Contiguous)
    (hnoff : executable.IsNoff)
    (hpages : (AddrSpace.ofHeader executable.noffHeader "").numPages ≤ c.NumPhysPages)
    (ha : a < executable.noffHeader.imageSize) :
    executable.byte (executable.noffHeader.code.inFileAddr + executable.noffHeader.readOffset a) =
      executable.byte (executable.noffHeader.code.inFileAddr + a) := by
  have hclear : (AddrSpace.ofHeader executable.noffHeader "").numPages ≤
      (bootWith c executable).MemBitMap.numClear := by
    rw [bootWith_numClear]
    exact hpages
  have ht := startWith_loadable c hnoff (a / PageSize)
  obtain ⟨s', hnew, hsame⟩ := h "" _ hclear
  obtain ⟨t', hload, heq⟩ := hsame a ha 0 _ ht
  obtain ⟨s₁, hnew₁, heager⟩ := newAddrSpaceNoVM_byte hcon hnoff "" hclear
  obtain ⟨t₁, hload₁, hlazy⟩ := load_byte hnoff ha ht
  rw [hnew₁] at hnew
  cases hnew
  rw [hload₁] at hload
  cases hload
  rw [← heager a ha, ← hlazy]
  exact heq

/-- The file with its first byte of data marked, and zeros after the header otherwise. -/
def File.marked (executable : File) : File where
  length := executable.length
  byte k :=
    if k < 40 then executable.byte k
    else if k = executable.noffHeader.code.inFileAddr + executable.noffHeader.code.size then 1
    else 0

theorem marked_noffHeader (executable : File) :
    executable.marked.noffHeader = executable.noffHeader := by
  have hget : ∀ k < 40, executable.marked.get? k = executable.get? k := by
    intro k hk
    simp only [File.get?, File.marked, if_pos hk]
  simp [File.noffHeader, File.segment, File.word, hget]

theorem marked_isNoff (h : executable.IsNoff) :
    executable.marked.IsNoff ∧ executable.marked.noffHeader = executable.noffHeader := by
  have hheader := marked_noffHeader executable
  refine ⟨⟨?_, ?_, ?_⟩, hheader⟩
  all_goals rw [hheader]
  · exact h.magic
  · exact h.header
  · exact h.image

theorem marked_data (h : executable.IsNoff) :
    executable.marked.byte (executable.noffHeader.code.inFileAddr +
      executable.noffHeader.code.size) = 1 := by
  have := h.header
  simp only [File.marked]
  rw [if_neg (by omega), if_pos trivial]

theorem marked_other (h : executable.IsNoff) (hk : k ≠ executable.noffHeader.code.size) :
    executable.marked.byte (executable.noffHeader.code.inFileAddr + k) = 0 := by
  have := h.header
  simp only [File.marked]
  rw [if_neg (by omega), if_neg (by omega)]

/-- **The two loaders build the same image of every executable with a given header if and only if
the data begin on a page boundary or end on the last page of the code.** -/
theorem same_image_iff {executable : File} (hnoff : executable.IsNoff)
    (hcon : executable.noffHeader.Contiguous) :
    executable.noffHeader.LoadersAgree ↔ executable.noffHeader.Aligned := by
  constructor
  · intro hagree
    by_contra hbad
    obtain ⟨hmod, hfit⟩ := not_or.1 hbad
    obtain ⟨hnoff', hheader⟩ := marked_isNoff hnoff
    have hpos : 0 < (AddrSpace.ofHeader executable.noffHeader "").numPages := by
      simp only [AddrSpace.ofHeader, divRoundUp, PageSize, UserStackSize]
      omega
    have hpages : (AddrSpace.ofHeader executable.marked.noffHeader "").numPages ≤
        (AddrSpace.ofHeader executable.noffHeader "").numPages := by rw [hheader]
    -- the first address on the page that the constructor gives to the data
    have hbyte := (hagree ⟨_, 1, 0, hpos, Nat.one_pos⟩ executable.marked hheader hnoff').byte_eq
      (hheader ▸ hcon) hnoff' hpages
      (a := PageSize * divRoundUp executable.noffHeader.code.size PageSize)
      (hheader ▸ Nat.lt_of_not_le hfit)
    have hne : PageSize * divRoundUp executable.noffHeader.code.size PageSize ≠
        executable.noffHeader.code.size := fun he => hmod (he ▸ Nat.mul_mod_right _ _)
    have hoff : executable.noffHeader.readOffset
        (PageSize * divRoundUp executable.noffHeader.code.size PageSize) =
          executable.noffHeader.code.size := by
      rw [NoffHeader.readOffset, if_neg (Nat.lt_irrefl _), Nat.sub_self, Nat.add_zero]
    rw [hheader, hoff, marked_data hnoff, marked_other hnoff hne] at hbyte
    exact absurd hbyte (by decide)
  · intro h c executable' hheader hnoff'
    rw [← hheader] at hcon h
    exact sameImage_of_aligned hcon hnoff' h

/-- An object file with four bytes of code and 200 of initialised data, the first of which is 1. -/
def lateData : File where
  length := 244
  byte k := [0xad, 0xdf, 0xba, 0,
    0, 0, 0, 0, 40, 0, 0, 0, 4, 0, 0, 0,
    4, 0, 0, 0, 44, 0, 0, 0, 200, 0, 0, 0,
    204, 0, 0, 0, 0, 0, 0, 0, 0, 0, 0, 0,
    0, 0, 0, 0, 1].getD k 0

theorem lateData_isNoff : lateData.IsNoff := by
  refine ⟨?_, ?_, ?_⟩ <;> decide +kernel

theorem lateData_contiguous : lateData.noffHeader.Contiguous := by
  refine ⟨?_, ?_, ?_⟩ <;> decide +kernel

/-- `smallNoff` has its data on the page of the code; the data of `lateData` reach the next page. -/
theorem same_image_iff_smallNoff :
    smallNoff.noffHeader.LoadersAgree ∧ ¬ lateData.noffHeader.LoadersAgree := by
  constructor
  · refine (same_image_iff ⟨?_, ?_, ?_⟩ ⟨?_, ?_, ?_⟩).2 (Or.inr ?_) <;> decide +kernel
  · intro h
    have := (same_image_iff lateData_isNoff lateData_contiguous).1 h
    exact absurd this (not_or.2 ⟨by decide +kernel, by decide +kernel⟩)

/-- A machine with room for all ten pages of `lateData`. -/
def tenFrames : Sizes := { machineH with NumPhysPages := 10, frames_pos := by decide }

/-- At address 128 of `lateData` the constructor without `VM` has put the byte for address 4, and
`load` the right one. -/
theorem data_moved_up : lateData.IsNoff ∧ lateData.noffHeader.Contiguous ∧
    ∃ s t : VM tenFrames, newAddrSpaceNoVM lateData "" (bootWith tenFrames lateData) = .ok s ∧
      Loadable lateData 0 1 (startWith tenFrames lateData) ∧
      load 0 1 (startWith tenFrames lateData) = .ok t ∧
      s.byteAt 0 128 = 1 ∧ t.byteAt 0 128 = 0 := by
  have himage : 128 < lateData.noffHeader.imageSize := by decide +kernel
  have hclear : (AddrSpace.ofHeader lateData.noffHeader "").numPages ≤
      (bootWith tenFrames lateData).MemBitMap.numClear := by
    rw [bootWith_numClear]
    decide +kernel
  have ht := startWith_loadable tenFrames lateData_isNoff 1
  obtain ⟨s, hnew, heager⟩ := newAddrSpaceNoVM_byte lateData_contiguous lateData_isNoff "" hclear
  obtain ⟨t, hload, hlazy⟩ := load_byte lateData_isNoff himage ht
  refine ⟨lateData_isNoff, lateData_contiguous, s, t, hnew, ht, hload, ?_, ?_⟩
  · exact (heager 128 himage).trans (by decide +kernel)
  · exact hlazy.trans (by decide +kernel)

end Nachos
