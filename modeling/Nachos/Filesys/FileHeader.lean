import Nachos.Filesys.Disk

/-!
# `filesys/filehdr.cc`

A file header fills one sector: the length of the file, the number of its data sectors, and an array
of `NumDirect` sector numbers.

* `ofBytes_toBytes`: a header written to a sector is the header read from it.
* `allocate_run`, `allocate_full`: `Allocate` takes the first clear bits of the free map, in order.
* `allocate_overrun`: it does not look at the size of `dataSectors`.
* `deallocate_run`: `Deallocate` clears the bits of the data sectors, if they are set.
-/

namespace Nachos

open ByteMemory Function Fallible

/-- `NumDirect`. -/
abbrev NumDirect : ℕ := 30

/-- `MaxFileSize`. -/
abbrev MaxFileSize : ℕ := NumDirect * SectorSize

/-- `divRoundDown` of `utility.h`, on `int`s. -/
def intDivRoundDown (n s : ℤ) : ℤ := n.tdiv s

/-- `divRoundUp` of `utility.h`, on `int`s. -/
def intDivRoundUp (n s : ℤ) : ℤ := n.tdiv s + if n.tmod s > 0 then 1 else 0

/-- `class FileHeader`. -/
@[ext]
structure FileHeader where
  numBytes : BitVec 32
  numSectors : BitVec 32
  dataSectors : Fin NumDirect → BitVec 32
  deriving DecidableEq

namespace FileHeader

/-- The header in a block of memory. -/
def ofBytes (data : Mem) : FileHeader where
  numBytes := word data 0
  numSectors := word data 4
  dataSectors i := word data (4 * (i + 2))

/-- The words of a header. -/
def words (hdr : FileHeader) : ℕ → BitVec 32
  | 0 => hdr.numBytes
  | 1 => hdr.numSectors
  | i + 2 => if h : i < NumDirect then hdr.dataSectors ⟨i, h⟩ else 0

/-- The bytes of a header. -/
def toBytes (hdr : FileHeader) : Mem := ofWords hdr.words

/-- `dataSectors[i]`.  The two words before the array are the other members of the header; outside
of the object the program reads what happens to be there. -/
def entry (hdr : FileHeader) (i : ℤ) : Fs ℤ := fun s =>
  if -2 ≤ i ∧ i < NumDirect then .ok ((hdr.words (i + 2).toNat).toInt, s)
  else .error (.kernel .wildAccess)

/-- `dataSectors[i] = sector`. -/
def setEntry (hdr : FileHeader) (i : ℕ) (sector : BitVec 32) : Fs FileHeader := fun s =>
  if h : i < NumDirect then
    .ok ({ hdr with dataSectors := update hdr.dataSectors ⟨i, h⟩ sector }, s)
  else .error (.kernel .wildAccess)

/-- The `int` that `BitMap::Find` returns. -/
def foundInt {n : ℕ} : Option (Fin n) → ℤ
  | some i => (i : ℕ)
  | none => -1

/-- `dataSectors[i] = freeMap->Find()`. -/
def allocateSector (p : FileHeader × BitMap NumSectors) (i : ℕ) :
    Fs (FileHeader × BitMap NumSectors) := do
  let hdr ← p.1.setEntry i (.ofInt 32 (foundInt p.2.find.1))
  return (hdr, p.2.find.2)

/-- `FileHeader::Allocate`: the result, and the header and the free map as they are left. -/
def allocate (hdr : FileHeader) (freeMap : BitMap NumSectors) (fileSize : BitVec 32) :
    Fs (Bool × FileHeader × BitMap NumSectors) := do
  let numSectors := intDivRoundUp fileSize.toInt SectorSize
  let hdr := { hdr with numBytes := fileSize, numSectors := .ofInt 32 numSectors }
  if (freeMap.numClear : ℤ) < numSectors then
    return (false, hdr, freeMap)
  let p ← (List.range numSectors.toNat).foldlM allocateSector (hdr, freeMap)
  return (true, p)

/-- One turn of the loop of `Deallocate`. -/
def deallocateSector (hdr : FileHeader) (freeMap : BitMap NumSectors) (i : ℕ) :
    Fs (BitMap NumSectors) := do
  let sector ← hdr.entry i
  if ← fromKernel (freeMap.test sector) then
    fromKernel (freeMap.clear sector)
  else throw .oughtToBeMarked

/-- `FileHeader::Deallocate`: the free map as it is left. -/
def deallocate (hdr : FileHeader) (freeMap : BitMap NumSectors) : Fs (BitMap NumSectors) :=
  (List.range hdr.numSectors.toInt.toNat).foldlM hdr.deallocateSector freeMap

/-- `FileHeader::FetchFrom`. -/
def fetchFrom (hdr : FileHeader) (sector : ℤ) : Fs FileHeader := do
  let data ← readSector sector hdr.toBytes 0
  return ofBytes data

/-- `FileHeader::WriteBack`. -/
def writeBack (hdr : FileHeader) (sector : ℤ) : Fs Unit := writeSector sector hdr.toBytes 0

/-- `FileHeader::ByteToSector`. -/
def byteToSector (hdr : FileHeader) (offset : ℤ) : Fs ℤ := hdr.entry (offset.tdiv SectorSize)

/-- `FileHeader::FileLength`. -/
def fileLength (hdr : FileHeader) : ℤ := hdr.numBytes.toInt

/-! ### Headers on the disk -/

theorem ofBytes_congr {data data' : Mem} (h : ∀ k < SectorSize, data k = data' k) :
    ofBytes data = ofBytes data' := by
  ext1
  · exact word_congr fun k hk => h _ (by unfold SectorSize; omega)
  · exact word_congr fun k hk => h _ (by unfold SectorSize; omega)
  · funext i
    have hi : (i : ℕ) < 30 := i.isLt
    exact word_congr fun k hk => h _ (by unfold SectorSize; omega)

/-- **A header is read as it was written.** -/
theorem ofBytes_toBytes (hdr : FileHeader) : ofBytes hdr.toBytes = hdr := by
  ext1
  · exact word_ofWords hdr.words 0
  · exact word_ofWords hdr.words 1
  · funext i
    have hword := word_ofWords hdr.words (i + 2)
    rw [words, dif_pos i.isLt] at hword
    exact hword

end FileHeader

/-- The header that a sector holds. -/
def headerAt (disk : Mem) (sector : ℕ) : FileHeader := .ofBytes (sectorAt disk sector)

variable {n : ℕ}

theorem ChangesOnly.headerAt {l : List ℕ} {d d' : Mem} (h : ChangesOnly l d d') (hn : n ∉ l) :
    headerAt d' n = Nachos.headerAt d n :=
  FileHeader.ofBytes_congr fun _ hk => h.sectorAt hn hk

namespace FileHeader

theorem fetchFrom_run (h : n < NumSectors) (hdr : FileHeader) (s : FsState) :
    hdr.fetchFrom n s = .ok (headerAt s.disk n, s) := by
  unfold fetchFrom
  rw [bind_run (readSector_run h hdr.toBytes 0 s)]
  refine congrArg (fun hdr => Except.ok (hdr, s)) (ofBytes_congr fun k hk => ?_)
  rw [copy_of_mem (by omega) (by omega), Nat.sub_zero]

/-- `WriteBack` changes its sector only, and there stands the header. -/
theorem writeBack_run (h : n < NumSectors) (hdr : FileHeader) (s : FsState) :
    ∃ d, hdr.writeBack n s = .ok ((), { s with disk := d }) ∧ headerAt d n = hdr ∧
      ChangesOnly [n] s.disk d := by
  refine ⟨_, writeSector_run h hdr.toBytes 0 s, ?_, fun a ha => ?_⟩
  · refine Eq.trans (ofBytes_congr fun k hk => ?_) (ofBytes_toBytes hdr)
    unfold sectorAt
    rw [copy_of_mem (by omega) (by omega)]
    exact congrArg hdr.toBytes (by omega)
  · have hne : a / SectorSize ≠ n := fun he => ha (List.mem_singleton.2 he)
    refine copy_of_not_mem ?_
    unfold SectorSize at *
    omega

/-! ### The data sectors of a header -/

/-- The number of data sectors. -/
def count (hdr : FileHeader) : ℕ := hdr.numSectors.toInt.toNat

/-- The number of bytes. -/
def length (hdr : FileHeader) : ℕ := hdr.numBytes.toInt.toNat

/-- Data sector `i`. -/
def sector (hdr : FileHeader) (i : ℕ) : ℕ :=
  if h : i < NumDirect then (hdr.dataSectors ⟨i, h⟩).toNat else 0

/-- The data sectors. -/
def sectors (hdr : FileHeader) : List ℕ := (List.range hdr.count).map hdr.sector

/-- The data sectors lie on the disk and hold all bytes of the file. -/
structure Covers (hdr : FileHeader) : Prop where
  count_le : hdr.count ≤ NumDirect
  sector_lt : ∀ i < hdr.count, hdr.sector i < NumSectors
  length_le : hdr.length ≤ SectorSize * hdr.count

variable {hdr : FileHeader}

theorem mem_sectors : n ∈ hdr.sectors ↔ ∃ i < hdr.count, hdr.sector i = n := by
  simp [sectors]

@[simp] theorem length_sectors : hdr.sectors.length = hdr.count := by simp [sectors]

variable {i : ℕ} {freeMap : BitMap NumSectors} {fileSize : BitVec 32}

theorem sectors_getElem? (hi : i < hdr.count) : hdr.sectors[i]? = some (hdr.sector i) := by
  simp [sectors, hi]

/-- Headers with the same data sectors. -/
theorem sector_congr {hdr' : FileHeader} (h : hdr.sectors = hdr'.sectors) (hi : i < hdr.count) :
    hdr.sector i = hdr'.sector i := by
  have hcount : hdr.count = hdr'.count := by rw [← length_sectors, h, length_sectors]
  have hget := sectors_getElem? hi
  rw [h, sectors_getElem? (hcount ▸ hi)] at hget
  exact (Option.some.inj hget).symm

/-- Different data sectors of a header have different numbers. -/
theorem sector_inj (h : hdr.sectors.Nodup) {j : ℕ} (hi : i < hdr.count) (hj : j < hdr.count)
    (hij : hdr.sector i = hdr.sector j) : i = j :=
  List.inj_on_of_nodup_map h (List.mem_range.2 hi) (List.mem_range.2 hj) hij

theorem fileLength_toNat (hdr : FileHeader) : hdr.fileLength.toNat = hdr.length := rfl

theorem Covers.div_lt (h : hdr.Covers) {k : ℕ} (hk : k < hdr.length) :
    k / SectorSize < hdr.count := by
  have hle := h.length_le
  exact Nat.div_lt_of_lt_mul (by omega)

/-- `dataSectors[i]` of a data sector. -/
theorem Covers.entry_run (h : hdr.Covers) (hi : i < hdr.count) (s : FsState) :
    hdr.entry i s = .ok ((hdr.sector i : ℤ), s) := by
  have hi' : i < NumDirect := Nat.lt_of_lt_of_le hi h.count_le
  have hlt := h.sector_lt i hi
  rw [sector, dif_pos hi'] at hlt ⊢
  have hint := BitVec.toInt_eq_toNat_of_lt (x := hdr.dataSectors ⟨i, hi'⟩)
    (by unfold NumSectors SectorsPerTrack NumTracks at hlt; omega)
  rw [entry, if_pos ⟨by omega, by exact_mod_cast hi'⟩,
    show ((i : ℤ) + 2).toNat = i + 2 by omega, words, dif_pos hi', hint]

/-! ### `Allocate` -/

/-- `divRoundUp` cuts towards zero below it. -/
theorem intDivRoundUp_eq (n : ℤ) :
    intDivRoundUp n SectorSize = if 0 ≤ n then (n + 127) / 128 else -(-n / 128) := by
  unfold intDivRoundUp SectorSize
  by_cases hn : 0 ≤ n
  · rw [if_pos hn, Int.tdiv_eq_ediv_of_nonneg hn, Int.tmod_eq_emod_of_nonneg hn]
    split_ifs <;> omega
  · obtain ⟨m, rfl⟩ : ∃ m, n = -m := ⟨-n, by omega⟩
    rw [if_neg hn, Int.neg_tdiv, Int.neg_tmod, Int.tdiv_eq_ediv_of_nonneg (by omega),
      Int.tmod_eq_emod_of_nonneg (by omega)]
    split_ifs <;> omega

theorem intDivRoundUp_toNat (n : ℤ) :
    (intDivRoundUp n SectorSize).toNat = divRoundUp n.toNat SectorSize := by
  rw [intDivRoundUp_eq]
  unfold divRoundUp SectorSize
  split_ifs <;> omega

/-- The number of sectors for an `int` is an `int`. -/
theorem toInt_intDivRoundUp (n : BitVec 32) :
    (BitVec.ofInt 32 (intDivRoundUp n.toInt SectorSize)).toInt =
      intDivRoundUp n.toInt SectorSize := by
  have hlt := n.toInt_lt
  have hle := n.le_toInt
  rw [intDivRoundUp_eq]
  rw [BitVec.toInt_ofInt_eq_self (by decide)] <;> split_ifs <;> omega

theorem sector_update {j : ℕ} (hi : i < NumDirect) (x : BitVec 32) :
    sector { hdr with dataSectors := update hdr.dataSectors ⟨i, hi⟩ x } j =
      if j = i then x.toNat else hdr.sector j := by
  unfold sector
  by_cases hj : j < NumDirect
  · rw [dif_pos hj, dif_pos hj]
    simp only [update_apply, Fin.mk.injEq]
    split_ifs <;> rfl
  · rw [dif_neg hj, dif_neg hj, if_neg (by omega)]

theorem setEntry_large (hi : NumDirect ≤ i) (x : BitVec 32) (s : FsState) :
    hdr.setEntry i x s = .error (.kernel .wildAccess) := dif_neg (by omega)

/-- One turn of the loop takes the first clear bit. -/
theorem allocateSector_run (hdr : FileHeader) {n : Fin NumSectors} {l : List (Fin NumSectors)}
    (hi : i < NumDirect) (hl : freeMap.clearBits = n :: l) (s : FsState) :
    ∃ hdr', allocateSector (hdr, freeMap) i s = .ok ((hdr', freeMap.setBit n), s) ∧
      hdr'.numBytes = hdr.numBytes ∧ hdr'.numSectors = hdr.numSectors ∧
      (∀ j, hdr'.sector j = if j = i then (n : ℕ) else hdr.sector j) := by
  have hn : (BitVec.ofInt 32 ((n : ℕ) : ℤ)).toNat = n := by
    have : (n : ℕ) < 1024 := n.isLt
    rw [BitVec.ofInt_natCast, BitVec.toNat_ofNat]
    exact Nat.mod_eq_of_lt (by omega)
  refine ⟨{ hdr with dataSectors := update hdr.dataSectors ⟨i, hi⟩ (.ofInt 32 (n : ℕ)) },
    ?_, rfl, rfl, fun j => ?_⟩
  · unfold allocateSector
    simp only [(BitMap.find_clearBits hl).1, foundInt]
    have hset : hdr.setEntry i (.ofInt 32 (n : ℕ)) s = .ok (_, s) := dif_pos hi
    exact bind_run hset
  · rw [sector_update, hn]

/-- The loop of `Allocate`. -/
theorem allocateSectors_run (hdr : FileHeader) (hn : n ≤ NumDirect)
    (hl : n ≤ freeMap.clearBits.length) (s : FsState) :
    ∃ hdr' freeMap', (List.range n).foldlM allocateSector (hdr, freeMap) s =
        .ok ((hdr', freeMap'), s) ∧
      hdr'.numBytes = hdr.numBytes ∧ hdr'.numSectors = hdr.numSectors ∧
      (List.range n).map hdr'.sector = (freeMap.clearBits.take n).map Fin.val ∧
      freeMap'.clearBits = freeMap.clearBits.drop n := by
  let I : ℕ → FileHeader × BitMap NumSectors → FsState → Prop := fun i p t =>
    t = s ∧ p.1.numBytes = hdr.numBytes ∧ p.1.numSectors = hdr.numSectors ∧
      (List.range i).map p.1.sector = (freeMap.clearBits.take i).map Fin.val ∧
      p.2.clearBits = freeMap.clearBits.drop i
  suffices hturn : ∀ i < n, ∀ p t, I i p t →
      ∃ p' t', allocateSector p i t = .ok (p', t') ∧ I (i + 1) p' t' by
    obtain ⟨⟨hdr', freeMap'⟩, s', hrun, rfl, hI⟩ :=
      foldlM_range_run (a := (hdr, freeMap)) (s := s) (show I 0 _ _ from ⟨rfl, rfl, rfl, rfl, rfl⟩)
        hturn
    exact ⟨hdr', freeMap', hrun, hI⟩
  rintro i hi ⟨hdr₁, freeMap₁⟩ t ⟨rfl, hbytes, hsectors, hmap, hclear⟩
  have hlt : i < freeMap.clearBits.length := by omega
  rw [List.drop_eq_getElem_cons hlt] at hclear
  obtain ⟨hdr₂, hrun, hbytes', hsectors', hsector⟩ :=
    allocateSector_run hdr₁ (i := i) (by omega) hclear t
  refine ⟨_, _, hrun, rfl, hbytes'.trans hbytes, hsectors'.trans hsectors, ?_,
    (BitMap.find_clearBits hclear).2⟩
  have hprev : (List.range i).map hdr₂.sector = (List.range i).map hdr₁.sector := by
    refine List.map_congr_left fun j hj => ?_
    rw [hsector, if_neg (Nat.ne_of_lt (List.mem_range.1 hj))]
  have hnew : hdr₂.sector i = freeMap.clearBits[i] := by rw [hsector, if_pos rfl]
  rw [List.range_succ, List.map_append, hprev, hmap, List.take_succ_eq_append_getElem hlt,
    List.map_append, List.map_singleton, hnew, List.map_singleton]

/-- **`Allocate` takes the first clear bits of the free map, in order.** -/
theorem allocate_run (hdr : FileHeader)
    (hn : divRoundUp fileSize.toInt.toNat SectorSize ≤ NumDirect)
    (hl : divRoundUp fileSize.toInt.toNat SectorSize ≤ freeMap.clearBits.length) (s : FsState) :
    ∃ hdr' freeMap', hdr.allocate freeMap fileSize s = .ok ((true, hdr', freeMap'), s) ∧
      hdr'.numBytes = fileSize ∧ hdr'.count = divRoundUp fileSize.toInt.toNat SectorSize ∧
      hdr'.sectors = (freeMap.clearBits.take hdr'.count).map Fin.val ∧
      freeMap'.clearBits = freeMap.clearBits.drop hdr'.count := by
  rw [← intDivRoundUp_toNat] at hn hl
  obtain ⟨hdr', freeMap', hrun, hbytes, hsectors, hmap, hclear⟩ :=
    allocateSectors_run { hdr with
      numBytes := fileSize
      numSectors := .ofInt 32 (intDivRoundUp fileSize.toInt SectorSize) } hn hl s
  have hcount : hdr'.count = (intDivRoundUp fileSize.toInt SectorSize).toNat := by
    rw [count, hsectors, toInt_intDivRoundUp]
  refine ⟨hdr', freeMap', ?_, hbytes, ?_, ?_, ?_⟩
  · have hspace : ¬ (freeMap.numClear : ℤ) < intDivRoundUp fileSize.toInt SectorSize := by
      rw [BitMap.numClear_eq]
      omega
    unfold allocate
    simp only [if_neg hspace]
    exact bind_run hrun
  · rw [hcount, intDivRoundUp_toNat]
  · rw [sectors, hcount, hmap]
  · rw [hcount, hclear]

/-- `Allocate` fails, and leaves the free map as it is, when there are not enough clear bits. -/
theorem allocate_full (hdr : FileHeader)
    (hl : freeMap.clearBits.length < divRoundUp fileSize.toInt.toNat SectorSize) (s : FsState) :
    ∃ hdr', hdr.allocate freeMap fileSize s = .ok ((false, hdr', freeMap), s) := by
  rw [← intDivRoundUp_toNat] at hl
  have hspace : (freeMap.numClear : ℤ) < intDivRoundUp fileSize.toInt SectorSize := by
    rw [BitMap.numClear_eq]
    omega
  unfold allocate
  simp only [if_pos hspace]
  exact ⟨_, rfl⟩

/-- **A file that needs more than `NumDirect` sectors runs over the end of the array**, if there are
so many clear bits. -/
theorem allocate_overrun (hdr : FileHeader)
    (hn : NumDirect < divRoundUp fileSize.toInt.toNat SectorSize)
    (hl : divRoundUp fileSize.toInt.toNat SectorSize ≤ freeMap.clearBits.length) (s : FsState) :
    hdr.allocate freeMap fileSize s = .error (.kernel .wildAccess) := by
  rw [← intDivRoundUp_toNat] at hn hl
  have hspace : ¬ (freeMap.numClear : ℤ) < intDivRoundUp fileSize.toInt SectorSize := by
    rw [BitMap.numClear_eq]
    omega
  unfold allocate
  simp only [if_neg hspace]
  refine bind_error ?_
  -- the first `NumDirect` turns fill the array, and the next one stores past its end
  obtain ⟨k, hk⟩ := Nat.exists_eq_add_of_lt hn
  obtain ⟨hdr₁, freeMap₁, hfirst, -⟩ := allocateSectors_run { hdr with
    numBytes := fileSize
    numSectors := .ofInt 32 (intDivRoundUp fileSize.toInt SectorSize) } (Nat.le_refl NumDirect)
    (show NumDirect ≤ freeMap.clearBits.length by omega) s
  rw [hk, Nat.add_assoc, Nat.add_comm k 1, ← Nat.add_assoc, List.range_add, List.foldlM_append]
  refine bind_error ?_
  rw [List.range_succ, List.foldlM_append, bind_run hfirst, List.foldlM_cons]
  refine bind_error ?_
  unfold allocateSector
  exact bind_error (setEntry_large (Nat.le_refl _) _ s)

/-! ### `Deallocate` -/

theorem deallocateSector_run (h : hdr.Covers) (hi : i < hdr.count)
    (hset : freeMap.isSet (hdr.sector i) = true) (s : FsState) :
    hdr.deallocateSector freeMap i s = .ok (freeMap.clearBit (hdr.sector i), s) := by
  have hlt := h.sector_lt i hi
  have hrange : (0 : ℤ) ≤ hdr.sector i ∧ (hdr.sector i : ℤ) < NumSectors := by omega
  have htest : freeMap.test (hdr.sector i) = .ok true := by
    rw [BitMap.test, if_pos hrange, Int.toNat_natCast, hset]
  have hclear : freeMap.clear (hdr.sector i) = .ok (freeMap.clearBit (hdr.sector i)) := by
    rw [BitMap.clear, if_pos hrange, Int.toNat_natCast]
  unfold deallocateSector
  rw [bind_run (h.entry_run hi s)]
  rw [htest, bind_run (show fromKernel (.ok true) s = .ok (true, s) from rfl), if_pos rfl, hclear]
  rfl

/-- **`Deallocate` clears the bits of the data sectors**, which are all set and all different. -/
theorem deallocate_run (h : hdr.Covers) (hnd : hdr.sectors.Nodup)
    (hset : ∀ n ∈ hdr.sectors, freeMap.isSet n = true) (s : FsState) :
    ∃ freeMap', hdr.deallocate freeMap s = .ok (freeMap', s) ∧
      ∀ n, freeMap'.isSet n = (decide (n ∉ hdr.sectors) && freeMap.isSet n) := by
  let I : ℕ → BitMap NumSectors → FsState → Prop := fun i b t =>
    t = s ∧ ∀ n, b.isSet n = (decide (n ∉ (List.range i).map hdr.sector) && freeMap.isSet n)
  suffices hturn : ∀ i < hdr.count, ∀ b t, I i b t →
      ∃ b' t', hdr.deallocateSector b i t = .ok (b', t') ∧ I (i + 1) b' t' by
    obtain ⟨freeMap', s', hrun, rfl, hI⟩ :=
      foldlM_range_run (a := freeMap) (s := s) (show I 0 _ _ from ⟨rfl, fun n => by simp⟩) hturn
    exact ⟨freeMap', hrun, hI⟩
  rintro i hi b t ⟨rfl, hb⟩
  -- the sectors cleared so far are others
  have hnew : hdr.sector i ∉ (List.range i).map hdr.sector := by
    intro hm
    obtain ⟨j, hj, hji⟩ := List.mem_map.1 hm
    have hji' : j < i := List.mem_range.1 hj
    have := sector_inj hnd (by omega) hi hji
    omega
  have hbit : b.isSet (hdr.sector i) = true := by
    rw [hb, hset _ (mem_sectors.2 ⟨i, hi, rfl⟩), decide_eq_true hnew]
    rfl
  refine ⟨_, t, deallocateSector_run h hi hbit t, rfl, fun n => ?_⟩
  rw [BitMap.isSet_clearBit, hb, List.range_succ, List.map_append]
  by_cases hn : hdr.sector i = n
  · simp [hn]
  · simp [hn, Ne.symm hn]

end FileHeader

end Nachos
