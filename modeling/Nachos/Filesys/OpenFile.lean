import Nachos.Filesys.FileHeader

/-!
# `filesys/openfile.cc`

An open file has its header in memory.  `ReadAt` reads all sectors that the request touches and
copies the part asked for; `WriteAt` first reads the sectors at the edges, if they are written in
part only, and then writes all sectors that the request touches.

* `readAt_run`: `ReadAt` yields the bytes of the file from the position on.
* `writeAt_run`: `WriteAt` replaces these bytes, and leaves alone the rest of the file and all
  sectors that are not among its data sectors.
* `writeAt_frame`: what a `WriteAt` leaves alone, also one that has nothing to write.

The arguments are `int`s.  A sum that is not an `int` is undefined in C++, and so is an index
outside the buffer or outside `dataSectors`: these runs end in a fault.
-/

namespace Nachos

open ByteMemory Fallible

/-- `class OpenFile`. -/
structure OpenFile where
  hdr : FileHeader
  seekPosition : ℤ

/-- The sum of two `int`s. -/
def addInt (a b : ℤ) : Fs ℤ :=
  if -INTMAX - 1 ≤ a + b ∧ a + b ≤ INTMAX then pure (a + b) else throw .overflow

/-- The part of a block of `size` bytes that a `bcopy` uses lies in it. -/
def inBounds (offset numBytes size : ℤ) : Fs Unit :=
  if 0 ≤ offset ∧ offset + numBytes ≤ size then pure () else throw (.kernel .wildAccess)

namespace OpenFile

/-- `OpenFile::OpenFile`. -/
def new (sector : ℤ) : Fs OpenFile := do
  let block ← newBlock
  let hdr ← (FileHeader.ofBytes block).fetchFrom sector
  return { hdr := hdr, seekPosition := 0 }

/-- `if ((position + numBytes) > fileLength) numBytes = fileLength - position`. -/
def clip (file : OpenFile) (numBytes position : ℤ) : Fs ℤ := do
  let last ← addInt position numBytes
  return if last > file.hdr.fileLength then file.hdr.fileLength - position else numBytes

/-- One turn of the loop that reads sectors into the buffer. -/
def readTurn (file : OpenFile) (firstSector : ℤ) (buf : Mem) (j : ℕ) : Fs Mem := do
  let sector ← file.hdr.byteToSector ((firstSector + j) * SectorSize)
  readSector sector buf (SectorSize * j)

/-- `OpenFile::ReadAt`, into memory at an offset. -/
def readAt (file : OpenFile) (into : Mem) (offset : ℕ) (numBytes position : ℤ) :
    Fs (ℤ × Mem) := do
  if numBytes ≤ 0 ∨ position ≥ file.hdr.fileLength then
    return (0, into)
  let numBytes ← file.clip numBytes position
  let firstSector := intDivRoundDown position SectorSize
  let lastSector := intDivRoundDown (position + numBytes - 1) SectorSize
  let numSectors := 1 + lastSector - firstSector
  let buf ← newBlock
  let buf ← (List.range numSectors.toNat).foldlM (file.readTurn firstSector) buf
  let start := position - firstSector * SectorSize
  inBounds start numBytes (numSectors * SectorSize)
  return (numBytes, copy (fun k => buf (start.toNat + k)) numBytes.toNat into offset)

/-- A sector is read into the buffer, if it is needed. -/
def readEdge (file : OpenFile) (needed : Bool) (buf : Mem) (offset : ℕ) (sector : ℤ) : Fs Mem := do
  if needed then
    let p ← file.readAt buf offset SectorSize (sector * SectorSize)
    return p.2
  return buf

/-- The first and the last sector are read, if they are to be partially modified. -/
def readEdges (file : OpenFile) (buf : Mem) (numBytes position firstSector lastSector : ℤ) :
    Fs Mem := do
  let firstAligned := decide (position = firstSector * SectorSize)
  let lastAligned := decide (position + numBytes = (lastSector + 1) * SectorSize)
  let buf ← file.readEdge (!firstAligned) buf 0 firstSector
  file.readEdge (!lastAligned && (decide (firstSector ≠ lastSector) || firstAligned)) buf
    ((lastSector - firstSector) * SectorSize).toNat lastSector

/-- One turn of the loop that writes the buffer to sectors. -/
def writeTurn (file : OpenFile) (firstSector : ℤ) (buf : Mem) (_ : Unit) (j : ℕ) : Fs Unit := do
  let sector ← file.hdr.byteToSector ((firstSector + j) * SectorSize)
  writeSector sector buf (SectorSize * j)

/-- `OpenFile::WriteAt`. -/
def writeAt (file : OpenFile) (src : Mem) (numBytes position : ℤ) : Fs ℤ := do
  if numBytes ≤ 0 ∨ position ≥ file.hdr.fileLength then
    return 0
  let numBytes ← file.clip numBytes position
  let firstSector := intDivRoundDown position SectorSize
  let lastSector := intDivRoundDown (position + numBytes - 1) SectorSize
  let numSectors := 1 + lastSector - firstSector
  let buf ← newBlock
  let buf ← file.readEdges buf numBytes position firstSector lastSector
  let start := position - firstSector * SectorSize
  inBounds start numBytes (numSectors * SectorSize)
  let buf := copy src numBytes.toNat buf start.toNat
  (List.range numSectors.toNat).foldlM (file.writeTurn firstSector buf) ()
  return numBytes

/-- `OpenFile::Seek`. -/
def seek (file : OpenFile) (position : ℤ) : OpenFile := { file with seekPosition := position }

/-- `OpenFile::Read`. -/
def read (file : OpenFile) (into : Mem) (numBytes : ℤ) : Fs (ℤ × Mem × OpenFile) := do
  let (result, into) ← file.readAt into 0 numBytes file.seekPosition
  return (result, into, { file with seekPosition := file.seekPosition + result })

/-- `OpenFile::Write`. -/
def write (file : OpenFile) (src : Mem) (numBytes : ℤ) : Fs (ℤ × OpenFile) := do
  let result ← file.writeAt src numBytes file.seekPosition
  return (result, { file with seekPosition := file.seekPosition + result })

end OpenFile

/-- Byte `k` of a file. -/
def fileByte (disk : Mem) (hdr : FileHeader) (k : ℕ) : Byte :=
  disk (SectorSize * hdr.sector (k / SectorSize) + k % SectorSize)

/-- A file none of whose sectors changes keeps its bytes. -/
theorem ChangesOnly.fileByte {l : List ℕ} {d d' : Mem} (h : ChangesOnly l d d') {hdr : FileHeader}
    (hd : ∀ n ∈ hdr.sectors, n ∉ l) {k : ℕ} (hk : k / SectorSize < hdr.count) :
    fileByte d' hdr k = Nachos.fileByte d hdr k :=
  h.sectorAt (hd _ (FileHeader.mem_sectors.2 ⟨_, hk, rfl⟩)) (Nat.mod_lt _ (by decide))

namespace OpenFile

variable {file : OpenFile} {n : ℕ} {numBytes position : ℤ}

theorem new_run (h : n < NumSectors) (s : FsState) :
    ∃ heap, new n s = .ok (⟨headerAt s.disk n, 0⟩, { s with heap := heap }) := by
  refine ⟨fun k => s.heap (k + 1), ?_⟩
  unfold new
  rw [bind_run (show newBlock s = .ok _ from rfl), bind_run (FileHeader.fetchFrom_run h _ _)]
  rfl

/-! ### `ReadAt` -/

/-- Nothing is asked for, or there is nothing there. -/
theorem readAt_none (hnone : numBytes ≤ 0 ∨ position ≥ file.hdr.fileLength) (into : Mem)
    (offset : ℕ) (s : FsState) :
    file.readAt into offset numBytes position s = .ok ((0, into), s) := by
  unfold readAt
  rw [if_pos hnone]
  rfl

theorem writeAt_none (hnone : numBytes ≤ 0 ∨ position ≥ file.hdr.fileLength) (src : Mem)
    (s : FsState) : file.writeAt src numBytes position s = .ok (0, s) := by
  unfold writeAt
  rw [if_pos hnone]
  rfl

/-- The number of bytes that a request transfers. -/
def transfer (file : OpenFile) (numBytes position : ℕ) : ℕ :=
  min numBytes (file.hdr.length - position)

theorem clip_run {p : ℕ} (hn : 0 < n) (hp : p < file.hdr.length) (hpn : (p + n : ℤ) ≤ INTMAX)
    (s : FsState) : file.clip n p s = .ok ((file.transfer n p : ℤ), s) := by
  have hadd : addInt p n s = .ok ((p + n : ℤ), s) := by
    unfold addInt
    rw [if_pos ⟨by omega, hpn⟩]
    rfl
  have hlen := file.hdr.fileLength_toNat
  unfold clip
  rw [bind_run hadd]
  refine congrArg (fun m => Except.ok (m, s)) ?_
  unfold transfer
  split_ifs <;> omega

/-- The `m` bytes at `p` are in the file, in the sectors from `first` to `last`. -/
structure Spans (file : OpenFile) (p m first last : ℕ) : Prop where
  pos : 0 < m
  le_length : p + m ≤ file.hdr.length
  first_eq : first = p / SectorSize
  last_eq : last = (p + m - 1) / SectorSize
  last_lt : last < file.hdr.count

namespace Spans

variable {p m first last : ℕ} (h : file.Spans p m first last)
include h

theorem first_le : first ≤ last := by
  have hm := h.pos
  rw [h.first_eq, h.last_eq]
  exact Nat.div_le_div_right (by omega)

theorem firstSector : intDivRoundDown p SectorSize = first := by
  rw [h.first_eq]
  exact Int.tdiv_eq_ediv_of_nonneg (by omega)

theorem lastSector : intDivRoundDown (p + m - 1) SectorSize = last := by
  have hm := h.pos
  rw [h.last_eq]
  unfold intDivRoundDown
  rw [Int.tdiv_eq_ediv_of_nonneg (by omega)]
  unfold SectorSize
  omega

theorem numSectors : (1 + (last : ℤ) - first).toNat = last + 1 - first := by
  have hle := h.first_le
  omega

theorem start : ((p : ℤ) - first * (SectorSize : ℕ)).toNat = p - SectorSize * first := by
  have hf := h.first_eq
  unfold SectorSize at *
  omega

/-- The request lies in the buffer of its sectors. -/
theorem inBounds_run (s : FsState) : inBounds ((p : ℤ) - first * (SectorSize : ℕ)) m
    ((1 + (last : ℤ) - first) * (SectorSize : ℕ)) s = .ok ((), s) := by
  have hm := h.pos
  have hf := h.first_eq
  have hl := h.last_eq
  unfold inBounds
  rw [if_pos]
  · rfl
  · unfold SectorSize at *
    omega

end Spans

/-- A request that transfers something: its length after clipping, and its sectors. -/
theorem exists_clip (h : file.hdr.Covers) {p : ℕ}
    (hsome : ¬ ((n : ℤ) ≤ 0 ∨ (p : ℤ) ≥ file.hdr.fileLength)) (hpn : (p + n : ℤ) ≤ INTMAX)
    (s : FsState) :
    ∃ m first last, file.transfer n p = m ∧ file.clip n p s = .ok ((m : ℤ), s) ∧
      file.Spans p m first last := by
  have hlen := file.hdr.fileLength_toNat
  have hpos : 0 < file.transfer n p := by unfold transfer; omega
  have hle : p + file.transfer n p ≤ file.hdr.length := by unfold transfer; omega
  exact ⟨_, _, _, rfl, clip_run (by omega) (by omega) hpn s,
    hpos, hle, rfl, rfl, h.div_lt (by omega)⟩

theorem byteToSector_run (h : file.hdr.Covers) {i j : ℕ} (hi : i + j < file.hdr.count)
    (s : FsState) :
    file.hdr.byteToSector (((i : ℕ) + j : ℤ) * SectorSize) s =
      .ok ((file.hdr.sector (i + j) : ℤ), s) := by
  have hdiv : (((i : ℕ) + j : ℤ) * SectorSize).tdiv SectorSize = ((i + j : ℕ) : ℤ) := by
    rw [Int.mul_tdiv_cancel _ (by decide)]
    omega
  unfold FileHeader.byteToSector
  rw [hdiv]
  exact h.entry_run hi s

theorem readTurn_run (h : file.hdr.Covers) {first i : ℕ} (hi : first + i < file.hdr.count)
    (buf : Mem) (s : FsState) :
    file.readTurn first buf i s = .ok (copy
      (sectorAt s.disk (file.hdr.sector (first + i))) SectorSize buf (SectorSize * i), s) := by
  unfold readTurn
  rw [bind_run (byteToSector_run h hi s)]
  exact readSector_run (h.sector_lt _ hi) buf (SectorSize * i) s

/-- The loop of `ReadAt` fills the buffer with bytes of the file. -/
theorem readSectors_run (h : file.hdr.Covers) (first : ℕ) (hn : first + n ≤ file.hdr.count)
    (buf : Mem) (s : FsState) :
    ∃ buf', (List.range n).foldlM (file.readTurn first) buf s = .ok (buf', s) ∧
      ∀ k < SectorSize * n, buf' k = fileByte s.disk file.hdr (SectorSize * first + k) := by
  let I : ℕ → Mem → FsState → Prop := fun i b t => t = s ∧
    ∀ k < SectorSize * i, b k = fileByte s.disk file.hdr (SectorSize * first + k)
  suffices hturn : ∀ i < n, ∀ b t, I i b t →
      ∃ b' t', file.readTurn first b i t = .ok (b', t') ∧ I (i + 1) b' t' by
    obtain ⟨buf', s', hrun, rfl, hI⟩ :=
      foldlM_range_run (a := buf) (s := s) (show I 0 _ _ from ⟨rfl, fun k hk => by omega⟩) hturn
    exact ⟨buf', hrun, hI⟩
  rintro i hi b t ⟨rfl, hb⟩
  refine ⟨_, t, readTurn_run h (by omega) b t, rfl, fun k hk => ?_⟩
  by_cases hk' : k < SectorSize * i
  · rw [copy_of_not_mem (Or.inl hk')]
    exact hb k hk'
  · rw [copy_of_mem (by omega) (by omega)]
    have hdiv : (SectorSize * first + k) / SectorSize = first + i := by
      unfold SectorSize at *
      omega
    have hmod : (SectorSize * first + k) % SectorSize = k - SectorSize * i := by
      unfold SectorSize at *
      omega
    rw [fileByte, hdiv, hmod]
    rfl

/-- **`ReadAt` yields the bytes of the file.** -/
theorem readAt_run (h : file.hdr.Covers) (into : Mem) (offset : ℕ) {p : ℕ}
    (hpn : (p + n : ℤ) ≤ INTMAX) (s : FsState) :
    ∃ heap, file.readAt into offset n p s =
      .ok (((file.transfer n p : ℤ),
        copy (fun k => fileByte s.disk file.hdr (p + k)) (file.transfer n p) into
          offset),
        { s with heap := heap }) := by
  have hlen := file.hdr.fileLength_toNat
  by_cases hnone : (n : ℤ) ≤ 0 ∨ (p : ℤ) ≥ file.hdr.fileLength
  · have hm : file.transfer n p = 0 := by unfold transfer; omega
    refine ⟨s.heap, ?_⟩
    rw [readAt_none hnone, hm, copy_zero]
    rfl
  unfold readAt
  obtain ⟨m, first, last, hm, hclip, hspan⟩ := exists_clip h hnone hpn s
  rw [hm]
  have hle := hspan.first_le
  have hlt := hspan.last_lt
  obtain ⟨buf, hloop, hbuf⟩ := readSectors_run h first (n := last + 1 - first) (by omega)
    (s.heap 0) { s with heap := fun k => s.heap (k + 1) }
  refine ⟨fun k => s.heap (k + 1), ?_⟩
  rw [if_neg hnone, bind_run hclip]
  simp only [hspan.firstSector, hspan.lastSector, hspan.numSectors]
  rw [bind_run (show newBlock s = .ok _ from rfl), bind_run hloop, bind_run (hspan.inBounds_run _),
    hspan.start]
  refine congrArg (fun b => Except.ok (((m : ℤ), b), _)) ?_
  refine copy_congr fun k hk => ?_
  have hk' : k < m := by omega
  have hf := hspan.first_eq
  have hl := hspan.last_eq
  rw [hbuf _ (by unfold SectorSize at *; omega)]
  exact congrArg _ (by unfold SectorSize at *; omega)

/-! ### `WriteAt` -/

/-- A sector of a file is written. -/
theorem fileByte_copy {hdr : FileHeader} (hnd : hdr.sectors.Nodup) {i k : ℕ} (hi : i < hdr.count)
    (hk : k / SectorSize < hdr.count) (src disk : Mem) :
    fileByte (copy src SectorSize disk (SectorSize * hdr.sector i)) hdr k =
      if k / SectorSize = i then src (k % SectorSize) else fileByte disk hdr k := by
  have hmod : k % SectorSize < SectorSize := Nat.mod_lt _ (by decide)
  unfold fileByte
  split_ifs with hki
  · rw [hki, copy_of_mem (by omega) (by omega), Nat.add_sub_cancel_left]
  · have hne : hdr.sector (k / SectorSize) ≠ hdr.sector i := fun he =>
      hki (FileHeader.sector_inj hnd hk hi he)
    refine copy_of_not_mem ?_
    unfold SectorSize at *
    omega

theorem writeTurn_run (h : file.hdr.Covers) {first i : ℕ} (hi : first + i < file.hdr.count)
    (buf : Mem) (s : FsState) :
    file.writeTurn first buf () i s = .ok ((), { s with
      disk := copy (fun k => buf (SectorSize * i + k)) SectorSize s.disk
        (SectorSize * file.hdr.sector (first + i)) }) := by
  unfold writeTurn
  rw [bind_run (byteToSector_run h hi s)]
  exact writeSector_run (h.sector_lt _ hi) buf (SectorSize * i) s

/-- The loop of `WriteAt` moves the buffer to the file, and touches no other sector. -/
theorem writeSectors_run (h : file.hdr.Covers) (hnd : file.hdr.sectors.Nodup) (first : ℕ)
    (hn : first + n ≤ file.hdr.count) (buf : Mem) (s : FsState) :
    ∃ d, (List.range n).foldlM (file.writeTurn first buf) () s = .ok ((), { s with disk := d }) ∧
      (∀ k, k / SectorSize < file.hdr.count → fileByte d file.hdr k =
        if SectorSize * first ≤ k ∧ k < SectorSize * (first + n) then buf (k - SectorSize * first)
        else fileByte s.disk file.hdr k) ∧
      ChangesOnly file.hdr.sectors s.disk d := by
  let I : ℕ → Unit → FsState → Prop := fun i _ t => t.heap = s.heap ∧
    (∀ k, k / SectorSize < file.hdr.count → fileByte t.disk file.hdr k =
      if SectorSize * first ≤ k ∧ k < SectorSize * (first + i) then buf (k - SectorSize * first)
      else fileByte s.disk file.hdr k) ∧
    ChangesOnly file.hdr.sectors s.disk t.disk
  suffices hturn : ∀ i < n, ∀ u t, I i u t →
      ∃ u' t', file.writeTurn first buf u i t = .ok (u', t') ∧ I (i + 1) u' t' by
    obtain ⟨u, ⟨d, heap⟩, hrun, rfl, hI⟩ := foldlM_range_run (a := ()) (s := s)
      (show I 0 _ _ from
        ⟨rfl, fun k _ => (if_neg (by rw [Nat.add_zero]; omega)).symm, fun a _ => rfl⟩) hturn
    exact ⟨d, hrun, hI⟩
  rintro i hi ⟨⟩ t ⟨hheap, hbytes, hframe⟩
  have hlt : first + i < file.hdr.count := by omega
  refine ⟨(), _, writeTurn_run h hlt buf t, hheap, fun k hk => ?_, fun a ha => ?_⟩
  · rw [fileByte_copy hnd hlt hk, hbytes k hk]
    -- sector `first + i` has just been written, those before it earlier
    by_cases hki : k / SectorSize = first + i
    · rw [if_pos hki, if_pos (by unfold SectorSize at *; omega)]
      exact congrArg buf (by unfold SectorSize at *; omega)
    · rw [if_neg hki]
      refine if_congr ?_ rfl rfl
      unfold SectorSize at *
      omega
  · have hne : a / SectorSize ≠ file.hdr.sector (first + i) := fun he =>
      ha (he ▸ FileHeader.mem_sectors.2 ⟨_, hlt, rfl⟩)
    dsimp only
    rw [copy_of_not_mem (by unfold SectorSize at *; omega)]
    exact hframe a ha

theorem readEdge_run (h : file.hdr.Covers) (needed : Bool) (buf : Mem) (offset : ℕ) {i : ℕ}
    (hi : i < NumDirect) (s : FsState) :
    ∃ buf' heap, file.readEdge needed buf offset i s = .ok (buf', { s with heap := heap }) ∧
      ∀ k, buf' k =
        if needed = true ∧ offset ≤ k ∧ k < offset + file.transfer SectorSize (SectorSize * i) then
          fileByte s.disk file.hdr (SectorSize * i + (k - offset))
        else buf k := by
  cases needed with
  | false => exact ⟨buf, s.heap, rfl, fun k => (if_neg (by simp)).symm⟩
  | true =>
    obtain ⟨heap, hread⟩ := readAt_run h buf offset (n := SectorSize) (p := SectorSize * i)
      (by unfold SectorSize NumDirect INTMAX at *; omega) s
    have hpos : (i : ℤ) * (SectorSize : ℕ) = (SectorSize * i : ℕ) := by
      push_cast
      exact Int.mul_comm _ _
    have hrun : file.readEdge true buf offset i s = .ok (copy
        (fun k => fileByte s.disk file.hdr (SectorSize * i + k))
        (file.transfer SectorSize (SectorSize * i)) buf offset, { s with heap := heap }) := by
      unfold readEdge
      rw [if_pos rfl, hpos, bind_run hread]
      rfl
    refine ⟨_, heap, hrun, fun k => ?_⟩
    simp only [true_and]
    rfl

/-- After the edges are read, the buffer has every byte of the touched sectors that is in the file
and that the request does not replace. -/
theorem readEdges_run (h : file.hdr.Covers) (buf : Mem) {p m first last : ℕ}
    (hspan : file.Spans p m first last) (s : FsState) :
    ∃ buf' heap, file.readEdges buf m p first last s = .ok (buf', { s with heap := heap }) ∧
      ∀ k < SectorSize * (last + 1 - first), SectorSize * first + k < file.hdr.length →
        SectorSize * first + k < p ∨ p + m ≤ SectorSize * first + k →
        buf' k = fileByte s.disk file.hdr (SectorSize * first + k) := by
  have hle := hspan.first_le
  have hlt : last < NumDirect := Nat.lt_of_lt_of_le hspan.last_lt h.count_le
  obtain ⟨hm, hpm, hfirst, hlast, -⟩ := hspan
  have hoff : (((last : ℤ) - first) * (SectorSize : ℕ)).toNat = SectorSize * (last - first) := by
    unfold SectorSize
    omega
  obtain ⟨firstAligned, hfa⟩ : ∃ b, decide ((p : ℤ) = first * (SectorSize : ℕ)) = b := ⟨_, rfl⟩
  obtain ⟨buf₁, heap₁, hrun₁, hbuf₁⟩ :=
    readEdge_run h (!firstAligned) buf 0 (Nat.lt_of_le_of_lt hle hlt) s
  obtain ⟨buf₂, heap₂, hrun₂, hbuf₂⟩ := readEdge_run h
    (!decide ((p + m : ℤ) = (last + 1) * (SectorSize : ℕ)) &&
      (decide ((first : ℤ) ≠ last) || firstAligned))
    buf₁ (SectorSize * (last - first)) hlt { s with heap := heap₁ }
  refine ⟨buf₂, heap₂, ?_, fun k hk hlen hout => ?_⟩
  · unfold readEdges
    simp only [hfa, hoff]
    rw [bind_run hrun₁]
    exact hrun₂
  · rw [hbuf₂, hbuf₁]
    unfold transfer
    split_ifs with hk₂ hk₁
    · exact congrArg _ (by unfold SectorSize at *; omega)
    · exact congrArg _ (by omega)
    · -- a byte outside both edges is one that the request replaces
      exfalso
      subst hfa
      simp only [Bool.and_eq_true, Bool.not_eq_true', decide_eq_false_iff_not, Bool.or_eq_true,
        decide_eq_true_eq] at hk₁ hk₂
      unfold SectorSize at *
      omega

/-- The bytes of the sector with the end of the file that lie past the end. -/
def PastEnd (hdr : FileHeader) (k : ℕ) : Prop :=
  hdr.length ≤ k ∧ SectorSize * (k / SectorSize) < hdr.length

/-- **`WriteAt` replaces the bytes of the request**, and leaves alone the rest of the disk; but the
sector with the end of the file is filled up with what is in the buffer. -/
theorem writeAt_run_sectors (h : file.hdr.Covers) (hnd : file.hdr.sectors.Nodup) (src : Mem) {p : ℕ}
    (hpn : (p + n : ℤ) ≤ INTMAX) (s : FsState) :
    ∃ d heap, file.writeAt src n p s = .ok ((file.transfer n p : ℤ), ⟨d, heap⟩) ∧
      (∀ k, k / SectorSize < file.hdr.count → ¬ PastEnd file.hdr k → fileByte d file.hdr k =
        if p ≤ k ∧ k < p + file.transfer n p then src (k - p) else fileByte s.disk file.hdr k) ∧
      ChangesOnly file.hdr.sectors s.disk d := by
  have hlen := file.hdr.fileLength_toNat
  by_cases hnone : (n : ℤ) ≤ 0 ∨ (p : ℤ) ≥ file.hdr.fileLength
  · have hm : file.transfer n p = 0 := by unfold transfer; omega
    refine ⟨s.disk, s.heap, ?_, fun k _ _ => (if_neg (by omega)).symm, fun a _ => rfl⟩
    rw [writeAt_none hnone, hm]
    rfl
  unfold writeAt
  obtain ⟨m, first, last, hm, hclip, hspan⟩ := exists_clip h hnone hpn s
  rw [hm]
  have hle := hspan.first_le
  have hlt := hspan.last_lt
  obtain ⟨buf, heap, hedges, hbuf⟩ := readEdges_run h (s.heap 0) hspan
    { s with heap := fun k => s.heap (k + 1) }
  obtain ⟨d, hloop, hbytes, hframe⟩ := writeSectors_run h hnd first
    (n := last + 1 - first) (by omega)
    (copy src m buf (p - SectorSize * first)) { s with heap := heap }
  refine ⟨d, heap, ?_, fun k hk hend => ?_, hframe⟩
  · rw [if_neg hnone, bind_run hclip]
    simp only [hspan.firstSector, hspan.lastSector, hspan.numSectors, hspan.start,
      Int.toNat_natCast]
    rw [bind_run (show newBlock s = .ok _ from rfl), bind_run hedges,
      bind_run (hspan.inBounds_run _), bind_run hloop]
    rfl
  · obtain ⟨hm0, hm1, hf, hl, -⟩ := hspan
    rw [hbytes k hk]
    by_cases hk₁ : SectorSize * first ≤ k ∧ k < SectorSize * (first + (last + 1 - first))
    · -- a sector that is written has a byte of the file
      have hlen' : k < file.hdr.length := by
        unfold PastEnd at hend
        unfold SectorSize at *
        omega
      rw [if_pos hk₁]
      by_cases hk₂ : p ≤ k ∧ k < p + m
      · rw [if_pos hk₂, copy_of_mem (by unfold SectorSize at *; omega)
          (by unfold SectorSize at *; omega)]
        exact congrArg src (by unfold SectorSize at *; omega)
      · rw [if_neg hk₂, copy_of_not_mem (by unfold SectorSize at *; omega),
          hbuf _ (by unfold SectorSize at *; omega) (by omega) (by omega)]
        exact congrArg _ (by omega)
    · rw [if_neg hk₁, if_neg (by unfold SectorSize at *; omega)]

/-- `WriteAt` replaces the bytes of the request, and leaves alone the rest of the file and all other
sectors. -/
theorem writeAt_run (h : file.hdr.Covers) (hnd : file.hdr.sectors.Nodup) (src : Mem) {p : ℕ}
    (hpn : (p + n : ℤ) ≤ INTMAX) (s : FsState) :
    ∃ d heap, file.writeAt src n p s = .ok ((file.transfer n p : ℤ), ⟨d, heap⟩) ∧
      (∀ k < file.hdr.length, fileByte d file.hdr k =
        if p ≤ k ∧ k < p + file.transfer n p then src (k - p) else fileByte s.disk file.hdr k) ∧
      ChangesOnly file.hdr.sectors s.disk d := by
  obtain ⟨d, heap, hrun, hbytes, hframe⟩ := writeAt_run_sectors h hnd src hpn s
  refine ⟨d, heap, hrun, fun k hk => ?_, hframe⟩
  exact hbytes k (h.div_lt hk) fun hend => absurd hend.1 (by omega)

/-! ### Whole files -/

theorem length_le_max (h : file.hdr.Covers) : file.hdr.length ≤ MaxFileSize := by
  have hmax := Nat.le_trans h.length_le (Nat.mul_le_mul_left _ h.count_le)
  unfold MaxFileSize
  omega

/-- A request that ends within the file is in the range of `int`. -/
theorem end_le (h : file.hdr.Covers) {p : ℕ} (hn : p + n ≤ file.hdr.length) :
    (p + n : ℤ) ≤ INTMAX := by
  have hmax := length_le_max h
  unfold MaxFileSize NumDirect SectorSize at hmax
  unfold INTMAX
  omega

theorem transfer_whole (hlen : n ≤ file.hdr.length) : file.transfer n 0 = n := by
  unfold transfer
  omega

theorem readWhole_run (h : file.hdr.Covers) (hlen : n ≤ file.hdr.length) (into : Mem)
    (s : FsState) :
    ∃ into' heap, file.readAt into 0 n (0 : ℕ) s = .ok (((n : ℤ), into'), { s with heap := heap }) ∧
      ∀ k < n, into' k = fileByte s.disk file.hdr k := by
  obtain ⟨heap, hread⟩ := readAt_run h into 0 (end_le h (n := n) (p := 0) (by omega)) s
  rw [transfer_whole hlen] at hread
  refine ⟨_, heap, hread, fun k hk => ?_⟩
  rw [copy_of_mem (by omega) (by omega), Nat.zero_add, Nat.sub_zero]

theorem writeWhole_run (h : file.hdr.Covers) (hnd : file.hdr.sectors.Nodup)
    (hlen : n ≤ file.hdr.length) (src : Mem) (s : FsState) :
    ∃ d heap, file.writeAt src n (0 : ℕ) s = .ok ((n : ℤ), ⟨d, heap⟩) ∧
      (∀ k < n, fileByte d file.hdr k = src k) ∧
      ChangesOnly file.hdr.sectors s.disk d := by
  obtain ⟨d, heap, hwrite, hbytes, hframe⟩ := writeAt_run h hnd src
    (end_le h (n := n) (p := 0) (by omega)) s
  rw [transfer_whole hlen] at hwrite hbytes
  refine ⟨d, heap, hwrite, fun k hk => ?_, hframe⟩
  rw [hbytes k (by omega), if_pos (by omega), Nat.sub_zero]

/-! ### Requests with any arguments -/

/-- **What a `WriteAt` leaves alone**: every sector that is not a data sector of its file, if it
starts at a place in the file or behind it and its end is an `int`. -/
theorem writeAt_frame (hc : file.hdr.Covers) (hnd : file.hdr.sectors.Nodup) (src : Mem)
    (hpos : 0 ≤ position) (hend : position + numBytes ≤ INTMAX) (s : FsState) :
    ∃ r d heap, file.writeAt src numBytes position s = .ok (r, ⟨d, heap⟩) ∧
      ChangesOnly file.hdr.sectors s.disk d := by
  by_cases hnone : numBytes ≤ 0
  · exact ⟨0, s.disk, s.heap, writeAt_none (Or.inl hnone) src s, fun a _ => rfl⟩
  obtain ⟨p, rfl⟩ := Int.eq_ofNat_of_zero_le hpos
  obtain ⟨n, rfl⟩ := Int.eq_ofNat_of_zero_le (show 0 ≤ numBytes by omega)
  obtain ⟨d, heap, hrun, -, hframe⟩ := writeAt_run hc hnd src hend s
  exact ⟨_, d, heap, hrun, hframe⟩

end OpenFile

end Nachos
