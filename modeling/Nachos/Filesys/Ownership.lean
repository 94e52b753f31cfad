import Nachos.Filesys.FileSystem
import Mathlib.Data.List.Nodup

/-!
# Which sectors are owned

Sectors 0 and 1 hold the headers of the free map and of the directory, and every directory entry in
use names the sector of a header.  A header owns its sector and its data sectors.  `Owned` says that
no sector has two owners and that the free map marks exactly the sectors that have one.

* `Owned.created`, `Owned.removed`, `Owned.written`: what `Create`, `Remove` and `WriteAt` do to a
  disk keeps the invariant.
-/

namespace Nachos

open ByteMemory (Mem)

/-- The sector of the header that a directory entry names. -/
def entrySector (disk : Mem) (i : ℕ) : ℕ := ((directoryAt disk).sector i).toNat

/-- The directory entries in use. -/
def entriesInUse (disk : Mem) : List ℕ := (List.range NumDirEntries).filter (directoryAt disk).inUse

/-- The sectors that hold headers. -/
def headerSectors (disk : Mem) : List ℕ :=
  FreeMapSector :: DirectorySector :: (entriesInUse disk).map (entrySector disk)

/-- The sector of a header, and its data sectors. -/
def sectorsOf (disk : Mem) (n : ℕ) : List ℕ := n :: (headerAt disk n).sectors

/-- The sectors that belong to some header. -/
def owned (disk : Mem) : List ℕ := (headerSectors disk).flatMap (sectorsOf disk)

/-- The number of data sectors is the length of the file in sectors, rounded up. -/
structure FileHeader.WellFormed (hdr : FileHeader) : Prop where
  count_le : hdr.count ≤ NumDirect
  count_eq : hdr.count = divRoundUp hdr.length SectorSize

theorem divRoundUp_ge (n : ℕ) : n ≤ SectorSize * divRoundUp n SectorSize := by
  unfold divRoundUp SectorSize
  split_ifs <;> omega

theorem FileHeader.WellFormed.covers {hdr : FileHeader} (h : hdr.WellFormed)
    (hrange : ∀ n ∈ hdr.sectors, n < NumSectors) : hdr.Covers where
  count_le := h.count_le
  sector_lt i hi := hrange _ (FileHeader.mem_sectors.2 ⟨i, hi, rfl⟩)
  length_le := h.count_eq ▸ divRoundUp_ge _

/-- No sector has two owners, and the free map marks those that have one. -/
structure Owned (disk : Mem) : Prop where
  map_length : (headerAt disk FreeMapSector).length = FreeMapFileSize
  dir_length : (headerAt disk DirectorySector).length = DirectoryFileSize
  wellFormed : ∀ n ∈ headerSectors disk, (headerAt disk n).WellFormed
  nodup : (owned disk).Nodup
  range : ∀ n ∈ owned disk, n < NumSectors
  marked : ∀ n < NumSectors, (freeMapAt disk).isSet n = true ↔ n ∈ owned disk

variable {d d' : Mem} {i n m : ℕ}

theorem mem_entriesInUse :
    i ∈ entriesInUse d ↔ i < NumDirEntries ∧ (directoryAt d).inUse i = true := by
  unfold entriesInUse
  rw [List.mem_filter, List.mem_range]

theorem mem_headerSectors :
    n ∈ headerSectors d ↔
      n = FreeMapSector ∨ n = DirectorySector ∨ ∃ i ∈ entriesInUse d, entrySector d i = n := by
  simp [headerSectors]

theorem freeMapSector_mem : FreeMapSector ∈ headerSectors d := List.mem_cons_self

theorem directorySector_mem : DirectorySector ∈ headerSectors d :=
  List.mem_cons_of_mem _ List.mem_cons_self

theorem entrySector_mem (hi : i ∈ entriesInUse d) : entrySector d i ∈ headerSectors d :=
  mem_headerSectors.2 (Or.inr (Or.inr ⟨i, hi, rfl⟩))

theorem mem_owned_of_sectorsOf (hn : n ∈ headerSectors d) (hm : m ∈ sectorsOf d n) :
    m ∈ owned d :=
  List.mem_flatMap.2 ⟨n, hn, hm⟩

theorem self_mem_sectorsOf : n ∈ sectorsOf d n := List.mem_cons_self

theorem data_mem_sectorsOf (hm : m ∈ (headerAt d n).sectors) : m ∈ sectorsOf d n :=
  List.mem_cons_of_mem _ hm

namespace Owned

variable (h : Owned d)

include h

theorem sectorsOf_nodup (hn : n ∈ headerSectors d) : (sectorsOf d n).Nodup :=
  (List.nodup_flatMap.1 h.nodup).1 n hn

/-- Different headers own different sectors. -/
theorem disjoint (hn : n ∈ headerSectors d) (hm : m ∈ headerSectors d)
    (hnm : n ≠ m) : List.Disjoint (sectorsOf d n) (sectorsOf d m) := by
  have : Std.Symm (Function.onFun List.Disjoint (sectorsOf d)) := ⟨fun _ _ => List.Disjoint.symm⟩
  exact (List.nodup_flatMap.1 h.nodup).2.forall hn hm hnm

/-- No header lies in a data sector. -/
theorem header_not_data (hn : n ∈ headerSectors d) (hm : m ∈ headerSectors d) :
    n ∉ (headerAt d m).sectors := by
  intro hmem
  by_cases hnm : n = m
  · subst hnm
    exact (List.nodup_cons.1 (h.sectorsOf_nodup hn)).1 hmem
  · exact h.disjoint hn hm hnm self_mem_sectorsOf (data_mem_sectorsOf hmem)

/-- Different headers have different data sectors. -/
theorem data_not_data (hn : n ∈ headerSectors d) (hm : m ∈ headerSectors d)
    (hnm : n ≠ m) {k : ℕ} (hk : k ∈ (headerAt d n).sectors) : k ∉ (headerAt d m).sectors :=
  fun hk' => h.disjoint hn hm hnm (data_mem_sectorsOf hk) (data_mem_sectorsOf hk')

/-- The free sectors are those without an owner. -/
theorem mem_clearBits {k : Fin NumSectors} :
    k ∈ (freeMapAt d).clearBits ↔ (k : ℕ) ∉ owned d := by
  rw [BitMap.mem_clearBits, ← h.marked k k.isLt, Bool.not_eq_true]

theorem headerSectors_nodup : (headerSectors d).Nodup := by
  refine (List.nodup_flatMap.1 h.nodup).2.imp ?_
  rintro n m hdis rfl
  exact hdis self_mem_sectorsOf self_mem_sectorsOf

theorem header_lt (hn : n ∈ headerSectors d) : n < NumSectors :=
  h.range n (mem_owned_of_sectorsOf hn self_mem_sectorsOf)

theorem data_nodup (hn : n ∈ headerSectors d) : (headerAt d n).sectors.Nodup :=
  (List.nodup_cons.1 (h.sectorsOf_nodup hn)).2

theorem covers (hn : n ∈ headerSectors d) : (headerAt d n).Covers :=
  (h.wellFormed n hn).covers fun _ hm =>
    h.range _ (mem_owned_of_sectorsOf hn (data_mem_sectorsOf hm))

/-- A directory entry does not name the header of the directory or of the free map. -/
theorem entrySector_ne (hi : i ∈ entriesInUse d) :
    entrySector d i ≠ FreeMapSector ∧ entrySector d i ≠ DirectorySector := by
  have hnd := h.headerSectors_nodup
  have hmem : entrySector d i ∈ (entriesInUse d).map (entrySector d) :=
    List.mem_map.2 ⟨i, hi, rfl⟩
  constructor
  · intro he
    exact (List.nodup_cons.1 hnd).1 (he ▸ List.mem_cons_of_mem _ hmem)
  · intro he
    exact (List.nodup_cons.1 (List.nodup_cons.1 hnd).2).1 (he ▸ hmem)

theorem mounted {fs : FileSystem}
    (hmap : fs.freeMapFile.hdr = headerAt d FreeMapSector)
    (hdir : fs.directoryFile.hdr = headerAt d DirectorySector) : Mounted fs d where
  map_hdr := hmap
  dir_hdr := hdir
  map_covers := h.covers freeMapSector_mem
  dir_covers := h.covers directorySector_mem
  map_nodup := h.data_nodup freeMapSector_mem
  dir_nodup := h.data_nodup directorySector_mem
  map_length := h.map_length
  dir_length := h.dir_length

/-- `Find` returns the sector of the header. -/
theorem find_some {dir : Directory NumDirEntries} (hdir : dir.Agree (directoryAt d))
    {name : Mem} (hf : (directoryAt d).findIndex name = some i) :
    dir.find name = entrySector d i := by
  have hi := Directory.findIndex_some hf
  have hlt := h.header_lt (entrySector_mem (mem_entriesInUse.2 hi))
  unfold Directory.find
  rw [hdir.findIndex, hf]
  dsimp only
  rw [hdir.sector hi.1]
  refine BitVec.toInt_eq_toNat_of_lt ?_
  unfold entrySector NumSectors SectorsPerTrack NumTracks at hlt
  omega

end Owned

theorem find_none {dir : Directory NumDirEntries} (hdir : dir.Agree (directoryAt d)) {name : Mem}
    (hf : (directoryAt d).findIndex name = none) : dir.find name = -1 := by
  unfold Directory.find
  rw [hdir.findIndex, hf]

/-! ### The same directory -/

theorem entriesInUse_congr (hdir : (directoryAt d').Agree (directoryAt d)) :
    entriesInUse d' = entriesInUse d :=
  List.filter_congr fun _ hi => hdir.inUse (List.mem_range.1 hi)

theorem headerSectors_congr (hdir : (directoryAt d').Agree (directoryAt d)) :
    headerSectors d' = headerSectors d := by
  unfold headerSectors
  rw [entriesInUse_congr hdir]
  congr 2
  refine List.map_congr_left fun i hi => ?_
  unfold entrySector
  rw [hdir.sector (mem_entriesInUse.1 hi).1]

/-! ### `Create` -/

/-- The data sectors of the directory and of the free map. -/
def metaSectors (disk : Mem) : List ℕ :=
  (headerAt disk DirectorySector).sectors ++ (headerAt disk FreeMapSector).sectors

/-- **What a successful `Create` does to the disk**: entry `i` of the directory names the new header
in sector `n`, which has taken the first free sectors. -/
structure Created (d : Mem) (name : Mem) (size : BitVec 32) (i n : ℕ) (d' : Mem) : Prop where
  notFound : (directoryAt d).findIndex name = none
  free : (directoryAt d).freeIndex = some i
  dir : (directoryAt d').Agree ((directoryAt d).enter i name (.ofNat 32 n))
  numBytes : (headerAt d' n).numBytes = size
  wellFormed : (headerAt d' n).WellFormed
  enough : (headerAt d' n).count < (freeMapAt d).clearBits.length
  taken : sectorsOf d' n =
    ((freeMapAt d).clearBits.take ((headerAt d' n).count + 1)).map Fin.val
  left : (freeMapAt d').clearBits = (freeMapAt d).clearBits.drop ((headerAt d' n).count + 1)
  changes : ChangesOnly (n :: metaSectors d) d d'

/-- A header is not in a data sector of the directory or of the free map. -/
theorem Owned.header_not_meta (h : Owned d) (hn : n ∈ headerSectors d) : n ∉ metaSectors d := by
  unfold metaSectors
  rw [List.mem_append, not_or]
  exact ⟨h.header_not_data hn directorySector_mem, h.header_not_data hn freeMapSector_mem⟩

namespace Created

variable {name : Mem} {size : BitVec 32} (hc : Created d name size i n d')

include hc

/-- The new sectors were free. -/
theorem fresh (h : Owned d) (hm : m ∈ sectorsOf d' n) : m ∉ owned d ∧ m < NumSectors := by
  rw [hc.taken] at hm
  obtain ⟨k, hk, rfl⟩ := List.mem_map.1 hm
  exact ⟨h.mem_clearBits.1 (List.mem_of_mem_take hk), k.isLt⟩

theorem sector_lt (h : Owned d) : n < NumSectors :=
  (hc.fresh h self_mem_sectorsOf).2

theorem count_eq :
    (headerAt d' n).count = divRoundUp size.toInt.toNat SectorSize := by
  rw [hc.wellFormed.count_eq, FileHeader.length, hc.numBytes]

theorem entry_lt : i < NumDirEntries :=
  (Directory.freeIndex_some hc.free).1

/-- The old headers stay. -/
theorem headerAt_eq (h : Owned d) (hm : m ∈ headerSectors d) :
    headerAt d' m = headerAt d m := by
  refine hc.changes.headerAt ?_
  rw [List.mem_cons, not_or]
  refine ⟨?_, h.header_not_meta hm⟩
  rintro rfl
  exact (hc.fresh h self_mem_sectorsOf).1 (mem_owned_of_sectorsOf hm self_mem_sectorsOf)

theorem sectorsOf_eq (h : Owned d) (hm : m ∈ headerSectors d) :
    sectorsOf d' m = sectorsOf d m := by
  unfold sectorsOf
  rw [hc.headerAt_eq h hm]

theorem inUse_eq {j : ℕ} (hj : j < NumDirEntries) :
    (directoryAt d').inUse j = if j = i then true else (directoryAt d).inUse j := by
  rw [hc.dir.inUse hj, Directory.inUse_enter]

theorem entrySector_eq (h : Owned d) {j : ℕ}
    (hj : j < NumDirEntries) : entrySector d' j = if j = i then n else entrySector d j := by
  have hn := hc.sector_lt h
  unfold entrySector
  rw [hc.dir.sector hj, Directory.sector_enter]
  split_ifs
  · rw [BitVec.toNat_ofNat]
    refine Nat.mod_eq_of_lt ?_
    unfold NumSectors SectorsPerTrack NumTracks at hn
    omega
  · rfl

theorem entrySector_new (h : Owned d) : entrySector d' i = n := by
  rw [hc.entrySector_eq h hc.entry_lt, if_pos rfl]

theorem not_inUse : i ∉ entriesInUse d := by
  rw [mem_entriesInUse, (Directory.freeIndex_some hc.free).2]
  simp

theorem entriesInUse_perm :
    (entriesInUse d').Perm (i :: entriesInUse d) := by
  have hnd : ∀ d : Mem, (entriesInUse d).Nodup := fun d => List.nodup_range.filter _
  refine (List.perm_ext_iff_of_nodup (hnd d') (List.nodup_cons.2 ⟨hc.not_inUse, hnd d⟩)).2 ?_
  intro j
  rw [List.mem_cons, mem_entriesInUse, mem_entriesInUse]
  by_cases hji : j = i
  · subst hji
    simp [hc.entry_lt, hc.inUse_eq hc.entry_lt]
  · refine ⟨fun ⟨hj, hu⟩ => Or.inr ⟨hj, ?_⟩, ?_⟩
    · rwa [hc.inUse_eq hj, if_neg hji] at hu
    · rintro (hji' | ⟨hj, hu⟩)
      · exact absurd hji' hji
      · exact ⟨hj, by rwa [hc.inUse_eq hj, if_neg hji]⟩

theorem headerSectors_perm (h : Owned d) :
    (headerSectors d').Perm (n :: headerSectors d) := by
  have hold : (entriesInUse d).map (entrySector d') = (entriesInUse d).map (entrySector d) := by
    refine List.map_congr_left fun j hj => ?_
    rw [hc.entrySector_eq h (mem_entriesInUse.1 hj).1, if_neg]
    rintro rfl
    exact hc.not_inUse hj
  have hperm := hc.entriesInUse_perm.map (entrySector d')
  rw [List.map_cons, hold, hc.entrySector_new h] at hperm
  refine ((hperm.cons _).cons _).trans ?_
  exact ((List.Perm.swap _ _ _).cons _).trans (List.Perm.swap _ _ _)

theorem owned_perm (h : Owned d) :
    (owned d').Perm (sectorsOf d' n ++ owned d) := by
  have hperm := (hc.headerSectors_perm h).flatMap_right (sectorsOf d')
  rw [List.flatMap_cons] at hperm
  have hold : (headerSectors d).flatMap (sectorsOf d') = owned d :=
    List.flatMap_congr fun m hm => hc.sectorsOf_eq h hm
  rw [hold] at hperm
  exact hperm

end Created

/-- `Create` keeps the ownership of sectors. -/
theorem Owned.created {name : Mem} {size : BitVec 32} (h : Owned d)
    (hc : Created d name size i n d') : Owned d' where
  map_length := by rw [hc.headerAt_eq h freeMapSector_mem, h.map_length]
  dir_length := by rw [hc.headerAt_eq h directorySector_mem, h.dir_length]
  wellFormed m hm := by
    rcases List.mem_cons.1 ((hc.headerSectors_perm h).mem_iff.1 hm) with rfl | hm
    · exact hc.wellFormed
    · rw [hc.headerAt_eq h hm]
      exact h.wellFormed m hm
  nodup := by
    rw [(hc.owned_perm h).nodup_iff]
    refine List.nodup_append'.2 ⟨?_, h.nodup, fun m hm hm' => (hc.fresh h hm).1 hm'⟩
    rw [hc.taken]
    exact ((BitMap.nodup_clearBits _).sublist (List.take_sublist _ _)).map Fin.val_injective
  range m hm := by
    rcases List.mem_append.1 ((hc.owned_perm h).mem_iff.1 hm) with hm | hm
    · exact (hc.fresh h hm).2
    · exact h.range m hm
  marked m hm := by
    -- the bits that are still clear are those that were not taken
    have hnd := (freeMapAt d).nodup_clearBits
    rw [← List.take_append_drop ((headerAt d' n).count + 1) (freeMapAt d).clearBits] at hnd
    have hnew : m ∈ sectorsOf d' n ↔
        (⟨m, hm⟩ : Fin NumSectors) ∈ (freeMapAt d).clearBits.take ((headerAt d' n).count + 1) := by
      rw [hc.taken]
      refine ⟨fun hmem => ?_, fun hmem => List.mem_map.2 ⟨_, hmem, rfl⟩⟩
      obtain ⟨k, hk, rfl⟩ := List.mem_map.1 hmem
      exact hk
    have hset : (freeMapAt d').isSet m = true ↔
        (⟨m, hm⟩ : Fin NumSectors) ∉ (freeMapAt d').clearBits := by
      rw [BitMap.mem_clearBits, Bool.not_eq_false]
    have hclear := h.mem_clearBits (k := ⟨m, hm⟩)
    rw [← List.take_append_drop ((headerAt d' n).count + 1) (freeMapAt d).clearBits,
      List.mem_append] at hclear
    rw [hset, hc.left, (hc.owned_perm h).mem_iff, List.mem_append, hnew]
    constructor
    · intro hdrop
      by_cases ho : m ∈ owned d
      · exact Or.inr ho
      · exact Or.inl ((hclear.2 ho).resolve_right hdrop)
    · rintro (htake | ho) hdrop
      · exact (List.nodup_append'.1 hnd).2.2 htake hdrop
      · exact hclear.1 (Or.inr hdrop) ho

/-! ### `Remove` -/

/-- **What a successful `Remove` does to the disk**: entry `i` is not in use any more, and its
sectors are free. -/
structure Removed (d : Mem) (i : ℕ) (d' : Mem) : Prop where
  inUse : i ∈ entriesInUse d
  dir : (directoryAt d').Agree ((directoryAt d).setInUse i false)
  bits : ∀ m < NumSectors, (freeMapAt d').isSet m =
    (decide (m ∉ sectorsOf d (entrySector d i)) && (freeMapAt d).isSet m)
  changes : ChangesOnly (metaSectors d) d d'

namespace Removed

theorem headerAt_eq (hr : Removed d i d') (h : Owned d) (hm : m ∈ headerSectors d) :
    headerAt d' m = headerAt d m :=
  hr.changes.headerAt (h.header_not_meta hm)

theorem entrySector_eq (hr : Removed d i d') {j : ℕ} (hj : j < NumDirEntries) :
    entrySector d' j = entrySector d j := by
  unfold entrySector
  rw [hr.dir.sector hj, Directory.sector_setInUse]

theorem mem_entriesInUse_iff (hr : Removed d i d') {j : ℕ} :
    j ∈ entriesInUse d' ↔ j ∈ entriesInUse d ∧ j ≠ i := by
  rw [mem_entriesInUse, mem_entriesInUse, and_assoc]
  refine and_congr_right fun hj => ?_
  rw [hr.dir.inUse hj, Directory.inUse_setInUse]
  split_ifs with hji
  · simp [hji]
  · simp [hji]

theorem headerSectors_perm (hr : Removed d i d') :
    (headerSectors d).Perm (entrySector d i :: headerSectors d') := by
  have hnd : ∀ d : Mem, (entriesInUse d).Nodup := fun d => List.nodup_range.filter _
  have hi : i ∉ entriesInUse d' := fun hi => (hr.mem_entriesInUse_iff.1 hi).2 rfl
  have hperm : (entriesInUse d).Perm (i :: entriesInUse d') := by
    refine (List.perm_ext_iff_of_nodup (hnd d) (List.nodup_cons.2 ⟨hi, hnd d'⟩)).2 fun j => ?_
    rw [List.mem_cons, hr.mem_entriesInUse_iff]
    by_cases hji : j = i
    · simp [hji, hr.inUse]
    · simp [hji]
  have hold : (entriesInUse d').map (entrySector d) = (entriesInUse d').map (entrySector d') :=
    List.map_congr_left fun j hj => (hr.entrySector_eq (mem_entriesInUse.1 hj).1).symm
  have hmap := hperm.map (entrySector d)
  rw [List.map_cons, hold] at hmap
  refine ((hmap.cons _).cons _).trans ?_
  exact ((List.Perm.swap _ _ _).cons _).trans (List.Perm.swap _ _ _)

theorem headerSectors_subset (hr : Removed d i d') (hm : m ∈ headerSectors d') :
    m ∈ headerSectors d :=
  hr.headerSectors_perm.mem_iff.2 (List.mem_cons_of_mem _ hm)

theorem owned_perm (hr : Removed d i d') (h : Owned d) :
    (owned d).Perm (sectorsOf d (entrySector d i) ++ owned d') := by
  have hperm := hr.headerSectors_perm.flatMap_right (sectorsOf d)
  rw [List.flatMap_cons] at hperm
  have hold : (headerSectors d').flatMap (sectorsOf d) = owned d' := by
    refine List.flatMap_congr fun m hm => ?_
    unfold sectorsOf
    rw [hr.headerAt_eq h (hr.headerSectors_subset hm)]
  rw [hold] at hperm
  exact hperm

end Removed

/-- `Remove` keeps the ownership of sectors. -/
theorem Owned.removed (h : Owned d) (hr : Removed d i d') : Owned d' where
  map_length := by rw [hr.headerAt_eq h freeMapSector_mem, h.map_length]
  dir_length := by rw [hr.headerAt_eq h directorySector_mem, h.dir_length]
  wellFormed m hm := by
    rw [hr.headerAt_eq h (hr.headerSectors_subset hm)]
    exact h.wellFormed m (hr.headerSectors_subset hm)
  nodup := (List.nodup_append'.1 ((hr.owned_perm h).nodup_iff.1 h.nodup)).2.1
  range m hm := h.range m ((hr.owned_perm h).mem_iff.2 (List.mem_append_right _ hm))
  marked m hm := by
    have hdis := (List.nodup_append'.1 ((hr.owned_perm h).nodup_iff.1 h.nodup)).2.2
    have hmem := (hr.owned_perm h).mem_iff (a := m)
    rw [List.mem_append] at hmem
    rw [hr.bits m hm, Bool.and_eq_true, decide_eq_true_eq, h.marked m hm, hmem]
    refine ⟨fun ⟨hn, ho⟩ => ho.resolve_left hn, fun ho => ⟨fun hn => hdis hn ho, Or.inr ho⟩⟩

/-! ### `WriteAt` -/

namespace Owned

variable {l : List ℕ}

/-- When neither headers nor the directory nor the free map change, nor does ownership. -/
theorem written (h : Owned d) (hch : ChangesOnly l d d')
    (hhdr : ∀ m ∈ headerSectors d, m ∉ l) (hmeta : ∀ m ∈ metaSectors d, m ∉ l) :
    Owned d' ∧ (directoryAt d').Agree (directoryAt d) ∧
      (∀ m < NumSectors, (freeMapAt d').isSet m = (freeMapAt d).isSet m) ∧
      ∀ m ∈ headerSectors d, headerAt d' m = headerAt d m := by
  have hheader : ∀ m ∈ headerSectors d, headerAt d' m = headerAt d m := fun m hm =>
    hch.headerAt (hhdr m hm)
  have hdir : (directoryAt d').Agree (directoryAt d) := by
    intro k hk
    unfold directoryAt
    rw [hheader _ directorySector_mem]
    refine hch.fileByte (fun m hm => hmeta m (List.mem_append_left _ hm)) ?_
    exact (h.covers directorySector_mem).div_lt (by rw [h.dir_length]; exact hk)
  have hbits : ∀ m < NumSectors, (freeMapAt d').isSet m = (freeMapAt d).isSet m := by
    intro m hm
    unfold freeMapAt
    rw [hheader _ freeMapSector_mem]
    refine BitMap.isSet_congr hm fun k hk => ?_
    refine hch.fileByte (fun m hm => hmeta m (List.mem_append_right _ hm)) ?_
    exact (h.covers freeMapSector_mem).div_lt (by rw [h.map_length]; exact hk)
  have hsectors := headerSectors_congr hdir
  have howned : owned d' = owned d := by
    unfold owned
    rw [hsectors]
    refine List.flatMap_congr fun m hm => ?_
    unfold sectorsOf
    rw [hheader m hm]
  refine ⟨⟨?_, ?_, ?_, howned ▸ h.nodup, howned ▸ h.range, ?_⟩, hdir, hbits, hheader⟩
  · rw [hheader _ freeMapSector_mem, h.map_length]
  · rw [hheader _ directorySector_mem, h.dir_length]
  · intro m hm
    rw [hsectors] at hm
    rw [hheader m hm]
    exact h.wellFormed m hm
  · intro m hm
    rw [hbits m hm, howned]
    exact h.marked m hm

/-- The data sectors of a file hold no header, and nothing of the directory or the free map. -/
theorem file_apart (h : Owned d) (hi : i ∈ entriesInUse d) :
    (∀ m ∈ headerSectors d, m ∉ (headerAt d (entrySector d i)).sectors) ∧
      ∀ m ∈ metaSectors d, m ∉ (headerAt d (entrySector d i)).sectors := by
  have hmem := entrySector_mem hi
  obtain ⟨hne₀, hne₁⟩ := h.entrySector_ne hi
  refine ⟨fun m hm => h.header_not_data hm hmem, fun m hm => ?_⟩
  rcases List.mem_append.1 hm with hm | hm
  · exact h.data_not_data directorySector_mem hmem hne₁.symm hm
  · exact h.data_not_data freeMapSector_mem hmem hne₀.symm hm

end Owned

end Nachos
