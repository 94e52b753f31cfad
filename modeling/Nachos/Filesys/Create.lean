import Nachos.Filesys.FileRuns

/-!
# `Create` is all or nothing

`FileSystem::Create` works on copies of the directory and of the free map and writes them back at
the end, when nothing can fail any more.

* `Created.entry_kept`, `Created.file_kept`: a new file leaves the other entries and files alone.
* `create_all_or_nothing`: when `Create` succeeds, and what it does to the disk in both cases.
-/

namespace Nachos

open ByteMemory (Mem)

variable {d d' : Mem} {name : Mem} {size : BitVec 32} {i n : ℕ}

/-- The other directory entries are as they were. -/
theorem Created.entry_kept (hc : Created d name size i n d') {j : ℕ} (hj : j < NumDirEntries)
    (hji : j ≠ i) :
    (directoryAt d').inUse j = (directoryAt d).inUse j ∧
      (directoryAt d').sector j = (directoryAt d).sector j ∧
      ∀ k < FileNameMaxLen, (directoryAt d').name j k = (directoryAt d).name j k := by
  refine ⟨?_, ?_, fun k hk => ?_⟩
  · rw [hc.inUse_eq hj, if_neg hji]
  · rw [hc.dir.sector hj, Directory.sector_enter, if_neg hji]
  · rw [hc.dir.name hj hk, Directory.name_enter _ _ _ _ hk, if_neg hji]

/-- The other files are as they were. -/
theorem Created.file_kept (hc : Created d name size i n d') (h : Owned d) {j : ℕ}
    (hj : j ∈ entriesInUse d) :
    headerAt d' (entrySector d j) = headerAt d (entrySector d j) ∧
      ∀ k < (headerAt d (entrySector d j)).length,
        fileByte d' (headerAt d (entrySector d j)) k =
          fileByte d (headerAt d (entrySector d j)) k := by
  have hmem := entrySector_mem hj
  refine ⟨hc.headerAt_eq h hmem, fun k hk => ?_⟩
  refine hc.changes.fileByte (fun m hm => ?_) ((h.covers hmem).div_lt hk)
  rw [List.mem_cons, not_or]
  constructor
  · -- the sector of the new header was free
    rintro rfl
    exact (hc.fresh h self_mem_sectorsOf).1 (mem_owned_of_sectorsOf hmem (data_mem_sectorsOf hm))
  · exact fun hmeta => (h.file_apart hj).2 m hmeta hm

/-- **`Create` is all or nothing.**  It returns; it succeeds iff no entry in use has the name, an
entry is free, and there are free sectors for the header and the data.  If it fails, the disk is as
it was.  If it succeeds, one entry is new, with the name and the sector of the new header, which
records the size; the other entries are as they were, and so are the other files. -/
theorem create_all_or_nothing {fs : FileSystem} {s : FsState} (h : Owned s.disk)
    (hmap : fs.freeMapFile.hdr = headerAt s.disk FreeMapSector)
    (hdir : fs.directoryFile.hdr = headerAt s.disk DirectorySector) (name : Mem)
    (size : BitVec 32) (hsize : size.toInt ≤ MaxFileSize) :
    ∃ success t, fs.create name size s = .ok (success, t) ∧
      (success = true ↔
        (∀ i < NumDirEntries, (directoryAt s.disk).inUse i = true →
          strncmp ((directoryAt s.disk).name i) name FileNameMaxLen ≠ 0) ∧
        (∃ i < NumDirEntries, (directoryAt s.disk).inUse i = false) ∧
        1 + divRoundUp size.toInt.toNat SectorSize ≤ (freeMapAt s.disk).numClear) ∧
      (success = false → t.disk = s.disk) ∧
      (success = true → ∃ i < NumDirEntries, (directoryAt s.disk).inUse i = false ∧
        (directoryAt t.disk).inUse i = true ∧
        (∀ k < FileNameMaxLen, (directoryAt t.disk).name i k = paddedString name k) ∧
        (headerAt t.disk (entrySector t.disk i)).numBytes = size ∧
        (∀ j < NumDirEntries, j ≠ i →
          (directoryAt t.disk).inUse j = (directoryAt s.disk).inUse j ∧
          (directoryAt t.disk).sector j = (directoryAt s.disk).sector j ∧
          ∀ k < FileNameMaxLen, (directoryAt t.disk).name j k = (directoryAt s.disk).name j k) ∧
        ∀ j ∈ entriesInUse s.disk,
          headerAt t.disk (entrySector s.disk j) = headerAt s.disk (entrySector s.disk j) ∧
          ∀ k < (headerAt s.disk (entrySector s.disk j)).length,
            fileByte t.disk (headerAt s.disk (entrySector s.disk j)) k =
              fileByte s.disk (headerAt s.disk (entrySector s.disk j)) k) := by
  have hmounted := h.mounted hmap hdir
  have hiff : Creatable s.disk name size ↔
      (∀ i < NumDirEntries, (directoryAt s.disk).inUse i = true →
        strncmp ((directoryAt s.disk).name i) name FileNameMaxLen ≠ 0) ∧
      (∃ i < NumDirEntries, (directoryAt s.disk).inUse i = false) ∧
      1 + divRoundUp size.toInt.toNat SectorSize ≤ (freeMapAt s.disk).numClear := by
    unfold Creatable
    rw [Directory.findIndex_eq_none_iff, Directory.freeIndex_ne_none_iff, BitMap.numClear_eq,
      Nat.add_comm, Nat.succ_le_iff]
  rcases h.create_run hmounted name (sectorsFor_le hsize) with
    ⟨heap, hrun, hno⟩ | ⟨i, n, d, heap, hrun, hc, hyes⟩
  · refine ⟨false, _, hrun, ?_, fun _ => rfl, fun hf => by cases hf⟩
    rw [← hiff]
    exact iff_of_false (by decide) hno
  · refine ⟨true, _, hrun, iff_of_true rfl (hiff.1 hyes), fun hf => (by cases hf), fun _ => ?_⟩
    have hi := hc.entry_lt
    refine ⟨i, hi, (Directory.freeIndex_some hc.free).2, ?_, fun k hk => ?_, ?_,
      fun j hj hji => hc.entry_kept hj hji, fun j hj => hc.file_kept h hj⟩
    · rw [hc.inUse_eq hi, if_pos rfl]
    · rw [hc.dir.name hi hk, Directory.name_enter _ _ _ _ hk, if_pos rfl]
    · rw [hc.entrySector_new h, hc.numBytes]

/-- A file of 200 bytes is created on a disk that has just been formatted. -/
theorem create_all_or_nothing_formatted :
    ∃ (fs : FileSystem) (s t : FsState), Owned s.disk ∧
      fs.freeMapFile.hdr = headerAt s.disk FreeMapSector ∧
      fs.directoryFile.hdr = headerAt s.disk DirectorySector ∧
      fs.create (fun _ => 0) 200#32 s = .ok (true, t) ∧
      ∃ i < NumDirEntries, (headerAt t.disk (entrySector t.disk i)).numBytes = 200#32 := by
  obtain ⟨fs, s, -, howned, hmounted, hnone, hclear⟩ := format_run ⟨fun _ => 0, fun _ _ => 0⟩
  obtain ⟨success, t, hrun, hiff, -, htrue⟩ := create_all_or_nothing howned hmounted.map_hdr
    hmounted.dir_hdr (fun _ => 0) 200#32 (by decide)
  obtain ⟨hname, hi, hroom⟩ := creatable_of_format hnone hclear (fun _ => 0)
    (show sectorsFor 200#32 < 1019 by decide)
  have hsuccess : success = true := by
    refine hiff.2
      ⟨Directory.findIndex_eq_none_iff.1 hname, Directory.freeIndex_ne_none_iff.1 hi, ?_⟩
    rw [BitMap.numClear_eq, Nat.add_comm]
    exact hroom
  obtain ⟨i, hlt, -, -, -, hbytes, -⟩ := htrue hsuccess
  exact ⟨fs, s, t, howned, hmounted.map_hdr, hmounted.dir_hdr, hsuccess ▸ hrun, i, hlt, hbytes⟩

end Nachos
