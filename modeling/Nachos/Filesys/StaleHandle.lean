import Nachos.Filesys.FileRuns

/-!
# Open files whose file has been removed

An `OpenFile` has the header of its file in memory, and nothing tells it when the file is removed.
`Remove` frees the sectors at once, and the next `Create` takes them again.

* `write_stays_in_file`: as long as every call is one that the code is made for, every `WriteAt`
  returns and leaves all other files, the directory, the free map and all headers as they are.
* `stale_write`: a run in which a write through such an open file changes another file.
-/

namespace Nachos

open ByteMemory (Mem)
open Transition

/-- The bytes of all files but the one of the handle, the directory, the free map and all headers
are the same. -/
structure WritesOnlyItsFile (disk : Mem) (handle : FsHandle) (disk' : Mem) : Prop where
  files : ∀ i ∈ entriesInUse disk, entrySector disk i ≠ handle.sector ∨ handle.removed = true →
    ∀ k < (headerAt disk (entrySector disk i)).length,
      fileByte disk' (headerAt disk (entrySector disk i)) k =
        fileByte disk (headerAt disk (entrySector disk i)) k
  directory : ∀ k < DirectoryFileSize, fileByte disk' (headerAt disk DirectorySector) k =
    fileByte disk (headerAt disk DirectorySector) k
  freeMap : ∀ k < FreeMapFileSize, fileByte disk' (headerAt disk FreeMapSector) k =
    fileByte disk (headerAt disk FreeMapSector) k
  headers : ∀ n ∈ headerSectors disk, headerAt disk' n = headerAt disk n

/-- The file of another header keeps its bytes. -/
theorem Owned.fileByte_eq {d d' : Mem} (h : Owned d) {n m : ℕ} (hn : n ∈ headerSectors d)
    (hm : m ∈ headerSectors d) (hnm : n ≠ m) (hch : ChangesOnly (headerAt d m).sectors d d') {k : ℕ}
    (hk : k < (headerAt d n).length) :
    fileByte d' (headerAt d n) k = fileByte d (headerAt d n) k :=
  hch.fileByte (fun _ hx => h.data_not_data hn hm hnm hx) ((h.covers hn).div_lt hk)

/-- **A `WriteAt` stays within its file**, in every run whose `WriteAt`s are through open files
whose files have not been removed, at positions from 0 on and with ends that are `int`s, and whose
new files have a size that a header can describe. -/
theorem write_stays_in_file {s : FsSystem} {k : ℕ} {src : Mem} {numBytes position : BitVec 32}
    {handle : FsHandle} (h : Reach FsInit LiveStep s)
    (hlive : (FsEvent.writeAt k src numBytes position).Live s)
    (hhandle : s.handles[k]? = some handle) :
    (∃ s', FsStep s (.writeAt k src numBytes position) s') ∧
      ∀ s', FsStep s (.writeAt k src numBytes position) s' →
        WritesOnlyItsFile s.mem.disk handle s'.mem.disk := by
  have hinv := FsInv.reach h
  refine ⟨hinv.returns _ hlive, fun s' hst => ?_⟩
  obtain ⟨⟨handle', hhandle', hremoved⟩, hpos, hend⟩ := hlive
  rw [hhandle] at hhandle'
  cases hhandle'
  have hmem := List.mem_of_getElem? hhandle
  obtain ⟨i, hi, hsector, -⟩ := hinv.handles handle hmem hremoved
  have hhdr := hsector ▸ entrySector_mem hi
  obtain ⟨hne₀, hne₁⟩ := hinv.owned.entrySector_ne hi
  rw [hsector] at hne₀ hne₁
  cases hst with
  | writeAt hk hrun =>
    rw [hhandle] at hk
    cases hk
    obtain ⟨hch, -, -, -, hheaders⟩ := hinv.write_frame hmem hremoved hpos hend hrun
    refine ⟨fun j hj hother x hx => ?_, fun x hx => ?_, fun x hx => ?_, hheaders⟩
    · have hne := hother.resolve_right (by rw [hremoved]; decide)
      exact hinv.owned.fileByte_eq (entrySector_mem hj) hhdr hne hch hx
    · refine hinv.owned.fileByte_eq directorySector_mem hhdr hne₁.symm hch ?_
      rw [hinv.owned.dir_length]
      exact hx
    · refine hinv.owned.fileByte_eq freeMapSector_mem hhdr hne₀.symm hch ?_
      rw [hinv.owned.map_length]
      exact hx

/-- One byte is written to the open file `a`. -/
theorem write_stays_in_open :
    ∃ (s s' : FsSystem) (handle : FsHandle), Reach FsInit LiveStep s ∧
      s.handles[0]? = some handle ∧ FsStep s (.writeAt 0 (oneChar 1) 1 0) s' ∧
      WritesOnlyItsFile s.mem.disk handle s'.mem.disk := by
  obtain ⟨fs, d, d', heap, i, n, -, -, -, -, hreach⟩ := exists_open
  have hlive : (FsEvent.writeAt 0 (oneChar 1) 1 0).Live
      ⟨fs, ⟨d', heap⟩, [⟨⟨headerAt d' n, 0⟩, n, false⟩]⟩ := ⟨⟨_, rfl, rfl⟩, by decide, by decide⟩
  obtain ⟨⟨s', hst⟩, honly⟩ := write_stays_in_file hreach hlive rfl
  exact ⟨_, s', _, hreach, rfl, hst, honly s' hst⟩

/-! ### A stale open file -/

/-- `Remove` of a file that is there. -/
theorem FsInv.exists_removed {s : FsSystem} (h : FsInv s) {name : Mem} {i : ℕ}
    (hf : (directoryAt s.mem.disk).findIndex name = some i) :
    ∃ d heap, Removed s.mem.disk i d ∧ LiveStep s (.remove name) { s with
      mem := ⟨d, heap⟩
      handles := s.handles.map (.afterRemove (entrySector s.mem.disk i)) } := by
  rcases h.owned.remove_run h.mounted name with ⟨heap, -, hnone⟩ | ⟨j, d, heap, hrun, hj, hr⟩
  · rw [hf] at hnone
    cases hnone
  · rw [hf] at hj
    cases hj
    refine ⟨d, heap, hr, ?_, trivial⟩
    rw [← h.owned.sectorOf_eq hf]
    exact FsStep.removed hrun

/-- The file `a` is removed, and the file `b` of one sector is created: it has the sectors of `a`,
and the open file is still there. -/
theorem exists_stale :
    ∃ (s : FsSystem) (i : ℕ) (hdr : FileHeader) (n : ℕ), Reach FsInit FsStep s ∧
      s.handles = [⟨⟨hdr, 0⟩, n, true⟩] ∧ i ∈ entriesInUse s.mem.disk ∧ hdr.Covers ∧
      hdr.sectors.Nodup ∧ hdr.length = 128 ∧
      (headerAt s.mem.disk (entrySector s.mem.disk i)).length = 128 ∧
      (headerAt s.mem.disk (entrySector s.mem.disk i)).sectors = hdr.sectors := by
  obtain ⟨fs, d₀, d₁, heap₂, i, n, howned₀, hnone, hclear, hc, hreach₂⟩ := exists_open
  have hnew : entrySector d₁ i = n := hc.entrySector_new howned₀
  have hinv₂ := FsInv.reach hreach₂
  obtain ⟨d₃, heap₃, hr, hst₃⟩ := hinv₂.exists_removed hc.findIndex_eq
  have hreach₃ : Reach FsInit LiveStep ⟨fs, ⟨d₃, heap₃⟩, [⟨⟨headerAt d₁ n, 0⟩, n, true⟩]⟩ := by
    have hstale : FsHandle.afterRemove (entrySector d₁ i) ⟨⟨headerAt d₁ n, 0⟩, n, false⟩ =
        ⟨⟨headerAt d₁ n, 0⟩, n, true⟩ := by
      simp [FsHandle.afterRemove, hnew]
    have hreach := Reach.step _ hreach₂ hst₃
    rw [List.map_singleton, hstale] at hreach
    exact hreach
  have hinv₃ := FsInv.reach hreach₃
  -- the free map is as it was after formatting
  have hclear₃ : (freeMapAt d₃).clearBits = (freeMapAt d₀).clearBits :=
    BitMap.clearBits_congr fun m => hc.removed_bits hr howned₀ m.isLt
  obtain ⟨j, m, d₄, heap₄, hc', hst₄⟩ := hinv₃.exists_created (hc.removed_none hr hnone)
    (by rw [show (freeMapAt d₃).clearBits = _ from hclear₃]; exact hclear) (oneChar 98)
  have hreach₄ : Reach FsInit LiveStep ⟨fs, ⟨d₄, heap₄⟩, [⟨⟨headerAt d₁ n, 0⟩, n, true⟩]⟩ :=
    .step _ hreach₃ hst₄
  have hn : n ∈ headerSectors d₁ := hnew ▸
    entrySector_mem (hc.entriesInUse_perm.mem_iff.2 List.mem_cons_self)
  have hsame : sectorsOf d₄ m = sectorsOf d₁ n := by
    rw [hc'.taken, hc.taken, hc'.count_eq, hc.count_eq]
    exact congrArg (fun l => (List.take _ l).map Fin.val) hclear₃
  refine ⟨_, j, headerAt d₁ n, n, hreach₄.mono fun _ _ _ h => h.1, rfl,
    hc'.entriesInUse_perm.mem_iff.2 List.mem_cons_self, hinv₂.owned.covers hn,
    hinv₂.owned.data_nodup hn, ?_, ?_, ?_⟩
  · rw [FileHeader.length, hc.numBytes]
    decide
  · rw [show entrySector d₄ j = m from hc'.entrySector_new hinv₃.owned, FileHeader.length,
      hc'.numBytes]
    decide
  · rw [show entrySector d₄ j = m from hc'.entrySector_new hinv₃.owned]
    exact (List.cons.inj hsame).2

/-- **A write through an open file whose file has been removed changes another file.** -/
theorem stale_write :
    ∃ (s s' : FsSystem) (k : ℕ) (src : Mem) (numBytes position : BitVec 32) (handle : FsHandle),
      Reach FsInit FsStep s ∧ FsStep s (.writeAt k src numBytes position) s' ∧
      s.handles[k]? = some handle ∧ ¬ WritesOnlyItsFile s.mem.disk handle s'.mem.disk := by
  obtain ⟨s, i, hdr, n, hreach, hhandles, hi, hcovers, hnd, hlength, hlength', hsectors⟩ :=
    exists_stale
  have hhandle : s.handles[0]? = some ⟨⟨hdr, 0⟩, n, true⟩ := by rw [hhandles]; rfl
  obtain ⟨b, hb⟩ : ∃ b, fileByte s.mem.disk hdr 0 = b := ⟨_, rfl⟩
  obtain ⟨d, heap, hwrite, hbytes, -⟩ := OpenFile.writeAt_run
    (show (⟨hdr, 0⟩ : OpenFile).hdr.Covers from hcovers) hnd (oneChar (b + 1)) (n := 1) (p := 0)
    (by decide) s.mem
  refine ⟨s, _, 0, oneChar (b + 1), 1, 0, _, hreach, FsStep.writeAt hhandle hwrite, hhandle, ?_⟩
  intro honly
  obtain ⟨hdr', hhdr'⟩ : ∃ hdr', headerAt s.mem.disk (entrySector s.mem.disk i) = hdr' := ⟨_, rfl⟩
  have hsame := honly.files i hi (Or.inr rfl) 0
  rw [hhdr'] at hsectors hsame hlength'
  -- the two headers have the same first sector
  have hfirst : hdr'.sector 0 = hdr.sector 0 := by
    refine FileHeader.sector_congr hsectors ?_
    rw [← FileHeader.length_sectors, hsectors, FileHeader.length_sectors]
    exact hcovers.div_lt (k := 0) (by omega)
  have hbyte : ∀ disk, fileByte disk hdr' 0 = fileByte disk hdr 0 := fun disk =>
    congrArg (fun n => disk (SectorSize * n + 0)) hfirst
  have hwritten : fileByte d hdr 0 = b + 1 := by
    refine (hbytes 0 (by rw [hlength]; decide)).trans (if_pos ⟨Nat.le_refl _, ?_⟩)
    rw [OpenFile.transfer, hlength]
    decide
  have hchanged : b + 1 = b := by
    rw [← hwritten, ← hbyte, hsame (by rw [hlength']; decide), hbyte, hb]
  have hne : ∀ c : Byte, c + 1 ≠ c := by decide
  exact hne b hchanged

end Nachos
