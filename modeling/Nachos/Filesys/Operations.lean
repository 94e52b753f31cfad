import Nachos.Filesys.Ownership

/-!
# What the operations of the file system do

On a disk whose sectors are owned, every operation of `filesys.cc` returns, and these lemmas say
with what effect: `format_run`, `create_run`, `create_ok`, `openFile_run` and `remove_run`.
-/

namespace Nachos

open ByteMemory (Mem)
open Fallible

variable {fs : FileSystem} {s : FsState}

/-- The sectors that the free map and the directory file use are different. -/
theorem Owned.dir_not_map (h : Owned s.disk) {n : ℕ}
    (hn : n ∈ (headerAt s.disk DirectorySector).sectors) :
    n ∉ (headerAt s.disk FreeMapSector).sectors :=
  h.data_not_data directorySector_mem freeMapSector_mem (by decide) hn

/-! ### `Create` -/

/-- `Create` fails at once, or comes to its innermost branch. -/
theorem Owned.create_start (h : Owned s.disk) (hm : Mounted fs s.disk) (name : Mem)
    (size : BitVec 32) :
    (∃ heap, fs.create name size s = .ok (false, { s with heap := heap }) ∧
      ((directoryAt s.disk).findIndex name ≠ none ∨ (directoryAt s.disk).freeIndex = none ∨
        (freeMapAt s.disk).clearBits = [])) ∨
    ∃ (dir : Directory NumDirEntries) (freeMap : BitMap NumSectors) (i : ℕ) (n : Fin NumSectors)
        (l : List (Fin NumSectors)) (heap : ℕ → Mem),
      (directoryAt s.disk).findIndex name = none ∧ (directoryAt s.disk).freeIndex = some i ∧
      (freeMapAt s.disk).clearBits = n :: l ∧ dir.Agree (directoryAt s.disk) ∧
      freeMap.clearBits = l ∧
      fs.create name size s = fs.createFile (dir.enter i name (.ofNat 32 n)) freeMap (n : ℕ) size
        { s with heap := heap } := by
  obtain ⟨dir, heap₁, hdir, hagree⟩ := hm.fetchDirectory_run
  obtain ⟨freeMap, heap₂, hmap, hbits⟩ :=
    Mounted.fetchFreeMap_run (s := { s with heap := heap₁ }) hm
  have hclear : freeMap.clearBits = (freeMapAt s.disk).clearBits :=
    BitMap.clearBits_congr fun i => hbits i i.isLt
  unfold FileSystem.create
  rw [bind_run hdir]
  cases hf : (directoryAt s.disk).findIndex name with
  | some i =>
    have hne : dir.find name ≠ -1 := by
      rw [h.find_some hagree hf]
      exact fun he => by cases he
    refine Or.inl ⟨heap₁, ?_, Or.inl (by simp)⟩
    rw [if_pos hne]
    rfl
  | none =>
    rw [if_neg (by rw [find_none hagree hf]; simp), bind_run hmap]
    cases hc : (freeMapAt s.disk).clearBits with
    | nil =>
      refine Or.inl ⟨heap₂, ?_, Or.inr (Or.inr rfl)⟩
      rw [BitMap.find_clearBits_nil (hclear.trans hc)]
      rfl
    | cons n l =>
      obtain ⟨hmark, hleft⟩ := BitMap.find_clearBits (hclear.trans hc)
      have hn : FileHeader.foundInt (some n) ≠ -1 := fun he => by cases he
      rw [hmark, if_neg hn]
      unfold Directory.add
      rw [hagree.findIndex, hf, hagree.freeIndex]
      cases hi : (directoryAt s.disk).freeIndex with
      | none => exact Or.inl ⟨heap₂, rfl, Or.inr (Or.inl rfl)⟩
      | some i =>
        refine Or.inr ⟨dir, freeMap.setBit n, i, n, l, heap₂, rfl, rfl, rfl, hagree, hleft, ?_⟩
        rw [← BitVec.ofInt_natCast]
        rfl

/-- The data sectors that a file of this size needs. -/
abbrev sectorsFor (size : BitVec 32) : ℕ := divRoundUp size.toInt.toNat SectorSize

variable {freeMap : BitMap NumSectors} {size : BitVec 32}

/-- The innermost branch, when there is room: the header, the directory and the free map are
written, in this order. -/
theorem Owned.createFile_run (h : Owned s.disk) (hm : Mounted fs s.disk) {n : ℕ}
    (hn : n < NumSectors) (hfree : n ∉ owned s.disk) (dir : Directory NumDirEntries)
    (hfit : sectorsFor size ≤ NumDirect) (hroom : sectorsFor size ≤ freeMap.clearBits.length) :
    ∃ d heap, fs.createFile dir freeMap n size s = .ok (true, ⟨d, heap⟩) ∧
      (headerAt d n).numBytes = size ∧ (headerAt d n).count = sectorsFor size ∧
      (headerAt d n).sectors = (freeMap.clearBits.take (sectorsFor size)).map Fin.val ∧
      (directoryAt d).Agree dir ∧
      (freeMapAt d).clearBits = freeMap.clearBits.drop (sectorsFor size) ∧
      ChangesOnly (n :: metaSectors s.disk) s.disk d := by
  obtain ⟨hdr₀, heap₀, hnew⟩ := newHeader_run s
  obtain ⟨hdr, freeMap', halloc, hbytes, hcount, hsectors, hleft⟩ :=
    FileHeader.allocate_run hdr₀ hfit hroom { s with heap := heap₀ }
  obtain ⟨d₁, hwrite₁, hhdr, hch₁⟩ := FileHeader.writeBack_run hn hdr { s with heap := heap₀ }
  obtain ⟨d₂, heap₂, hwrite₂, hdir, hch₂⟩ := Directory.writeBack_run dir hm.dirFile_covers
    hm.dirFile_nodup hm.dirFile_length ⟨d₁, heap₀⟩
  obtain ⟨d₃, heap₃, hwrite₃, hbits, hch₃⟩ := BitMap.writeBack_run freeMap' hm.mapFile_covers
    hm.mapFile_nodup hm.mapFile_length.ge ⟨d₂, heap₂⟩
  rw [hm.dir_hdr] at hdir hch₂
  rw [hm.map_hdr] at hbits hch₃
  have hchanges : ChangesOnly (n :: metaSectors s.disk) s.disk d₃ := (hch₁.trans hch₂).trans hch₃
  -- the headers that are owned are not among the sectors written
  have hold : ∀ m ∈ headerSectors s.disk, headerAt d₃ m = headerAt s.disk m := by
    intro m hmem
    refine hchanges.headerAt ?_
    rw [List.mem_cons, not_or]
    refine ⟨?_, h.header_not_meta hmem⟩
    rintro rfl
    exact hfree (mem_owned_of_sectorsOf hmem self_mem_sectorsOf)
  have hnew' : headerAt d₃ n = hdr := by
    rw [← hhdr]
    refine (hch₂.trans hch₃).headerAt fun hmem => hfree ?_
    rcases List.mem_append.1 hmem with hmem | hmem
    · exact mem_owned_of_sectorsOf directorySector_mem (data_mem_sectorsOf hmem)
    · exact mem_owned_of_sectorsOf freeMapSector_mem (data_mem_sectorsOf hmem)
  refine ⟨d₃, heap₃, ?_, ?_, ?_, ?_, ?_, ?_, hchanges⟩
  · unfold FileSystem.createFile
    rw [bind_run hnew, bind_run halloc, if_neg (by simp), bind_run hwrite₁, bind_run hwrite₂,
      bind_run hwrite₃]
    rfl
  · rw [hnew', hbytes]
  · rw [hnew', hcount]
  · rw [hnew', hsectors, hcount]
  · refine Directory.Agree.trans (fun k hk => ?_) hdir
    unfold directoryAt
    rw [hold _ directorySector_mem]
    refine hch₃.fileByte (fun m hmem => h.dir_not_map hmem) ?_
    exact (h.covers directorySector_mem).div_lt (by rw [h.dir_length]; exact hk)
  · rw [show sectorsFor size = hdr.count from hcount.symm, ← hleft]
    refine BitMap.clearBits_congr fun i => ?_
    unfold freeMapAt
    rw [hold _ freeMapSector_mem]
    exact hbits i i.isLt

/-- The innermost branch, when there is no room. -/
theorem createFile_full (fs : FileSystem) (s : FsState) (dir : Directory NumDirEntries) {n : ℤ}
    (hroom : freeMap.clearBits.length < sectorsFor size) :
    ∃ heap, fs.createFile dir freeMap n size s = .ok (false, { s with heap := heap }) := by
  obtain ⟨hdr₀, heap₀, hnew⟩ := newHeader_run s
  obtain ⟨hdr, halloc⟩ := FileHeader.allocate_full hdr₀ hroom { s with heap := heap₀ }
  refine ⟨heap₀, ?_⟩
  unfold FileSystem.createFile
  rw [bind_run hnew, bind_run halloc]
  rfl

/-- There is a name to be made, an entry for it, and room for the header and the data. -/
def Creatable (disk : Mem) (name : Mem) (size : BitVec 32) : Prop :=
  (directoryAt disk).findIndex name = none ∧ (directoryAt disk).freeIndex ≠ none ∧
    sectorsFor size < (freeMapAt disk).clearBits.length

/-- **A file that fits into a header is created iff there is room for it.** -/
theorem Owned.create_run (h : Owned s.disk) (hm : Mounted fs s.disk) (name : Mem)
    (hfit : sectorsFor size ≤ NumDirect) :
    (∃ heap, fs.create name size s = .ok (false, { s with heap := heap }) ∧
      ¬ Creatable s.disk name size) ∨
    ∃ i n d heap, fs.create name size s = .ok (true, ⟨d, heap⟩) ∧ Created s.disk name size i n d ∧
      Creatable s.disk name size := by
  rcases h.create_start hm name size with ⟨heap, hrun, hwhy⟩ |
    ⟨dir, freeMap, i, n, l, heap, hname, hi, hc, hagree, hl, hrun⟩
  · refine Or.inl ⟨heap, hrun, fun ⟨hname, hi, hroom⟩ => ?_⟩
    rcases hwhy with hname' | hi' | hc
    · exact hname' hname
    · exact hi hi'
    · rw [hc] at hroom
      exact absurd hroom (Nat.not_lt_zero _)
  have hlen : (freeMapAt s.disk).clearBits.length = freeMap.clearBits.length + 1 := by
    rw [hc, hl]
    rfl
  by_cases hroom : sectorsFor size ≤ freeMap.clearBits.length
  · have hfree : (n : ℕ) ∉ owned s.disk := h.mem_clearBits.1 (by rw [hc]; exact List.mem_cons_self)
    obtain ⟨d, heap', hrun', hbytes, hcount, hsectors, hdir, hleft, hch⟩ :=
      Owned.createFile_run (s := { s with heap := heap }) h hm n.isLt hfree
        (dir.enter i name (.ofNat 32 n)) hfit hroom
    refine Or.inr ⟨i, n, d, heap', hrun.trans hrun', ⟨hname, hi, ?_, hbytes, ⟨?_, ?_⟩, ?_, ?_, ?_,
      hch⟩, hname, ?_, ?_⟩
    · exact hdir.trans (hagree.enter i name _)
    · rw [hcount]
      exact hfit
    · rw [hcount, FileHeader.length, hbytes]
    · rw [hcount]
      omega
    · rw [sectorsOf, hsectors, hcount, hc, hl, List.take_succ_cons, List.map_cons]
    · rw [hleft, hcount, hc, hl, List.drop_succ_cons]
    · rw [hi]
      exact fun he => by cases he
    · omega
  · obtain ⟨heap', hrun'⟩ := createFile_full fs { s with heap := heap }
      (dir.enter i name (.ofNat 32 n)) (n := (n : ℕ)) (Nat.lt_of_not_le hroom)
    refine Or.inl ⟨heap', hrun.trans hrun', fun ⟨_, _, hroom'⟩ => ?_⟩
    omega

/-- A `Create` that returns has failed and left the disk as it was, or has made the file. -/
theorem Owned.create_ok (h : Owned s.disk) (hm : Mounted fs s.disk) {name : Mem}
    (hfit : sectorsFor size ≤ NumDirect) {r : Bool} {t : FsState}
    (hok : fs.create name size s = .ok (r, t)) :
    (r = false ∧ t.disk = s.disk) ∨ (r = true ∧ ∃ i n, Created s.disk name size i n t.disk) := by
  rcases h.create_run hm name hfit with ⟨heap, hrun, -⟩ | ⟨i, n, d, heap, hrun, hc, -⟩
  · rw [hrun] at hok
    cases hok
    exact Or.inl ⟨rfl, rfl⟩
  · rw [hrun] at hok
    cases hok
    exact Or.inr ⟨rfl, i, n, hc⟩

/-! ### `Open` -/

/-- `Open` brings the header of the file into memory. -/
theorem Owned.openFile_run (h : Owned s.disk) (hm : Mounted fs s.disk) (name : Mem) :
    ∃ heap, fs.openFile name s = .ok (((directoryAt s.disk).findIndex name).map fun i =>
      ⟨headerAt s.disk (entrySector s.disk i), 0⟩, { s with heap := heap }) := by
  obtain ⟨dir, heap₁, hdir, hagree⟩ := hm.fetchDirectory_run
  unfold FileSystem.openFile
  rw [bind_run hdir]
  cases hf : (directoryAt s.disk).findIndex name with
  | none =>
    refine ⟨heap₁, ?_⟩
    simp only [find_none hagree hf]
    rfl
  | some i =>
    have hlt := h.header_lt (entrySector_mem (mem_entriesInUse.2 (Directory.findIndex_some hf)))
    obtain ⟨heap₂, hnew⟩ := OpenFile.new_run hlt { s with heap := heap₁ }
    refine ⟨heap₂, ?_⟩
    simp only [h.find_some hagree hf]
    rw [if_pos (by omega), bind_run hnew]
    rfl

/-! ### `Remove` -/

/-- The sectors of a file are freed in the map: `Deallocate`, and `Clear` for its header. -/
theorem Owned.free_run (h : Owned s.disk) {n : ℕ} (hmem : n ∈ headerSectors s.disk)
    (hbits : ∀ m < NumSectors, freeMap.isSet m = (freeMapAt s.disk).isSet m) (t : FsState) :
    ∃ freeMap', (headerAt s.disk n).deallocate freeMap t = .ok (freeMap', t) ∧
      fromKernel (freeMap'.clear (n : ℤ)) t = .ok (freeMap'.clearBit n, t) ∧
      ∀ m < NumSectors, (freeMap'.clearBit n).isSet m =
        (decide (m ∉ sectorsOf s.disk n) && (freeMapAt s.disk).isSet m) := by
  -- all data sectors are marked
  have hset : ∀ m ∈ (headerAt s.disk n).sectors, freeMap.isSet m = true := by
    intro m hm
    have hown := mem_owned_of_sectorsOf hmem (data_mem_sectorsOf hm)
    rw [hbits m (h.range m hown)]
    exact (h.marked m (h.range m hown)).2 hown
  obtain ⟨freeMap', hdealloc, hbits'⟩ :=
    FileHeader.deallocate_run (h.covers hmem) (h.data_nodup hmem) hset t
  refine ⟨freeMap', hdealloc, ?_, fun m hm => ?_⟩
  · rw [BitMap.clear_fin freeMap' ⟨n, h.header_lt hmem⟩]
    rfl
  · rw [BitMap.isSet_clearBit, hbits' m, hbits m hm]
    unfold sectorsOf
    by_cases hnm : n = m
    · simp [hnm]
    · simp [hnm, Ne.symm hnm]

/-- **`Remove` never breaks off**: it finds no file, or frees the sectors of the one it finds. -/
theorem Owned.remove_run (h : Owned s.disk) (hm : Mounted fs s.disk) (name : Mem) :
    (∃ heap, fs.remove name s = .ok (false, { s with heap := heap }) ∧
      (directoryAt s.disk).findIndex name = none) ∨
    ∃ i d heap, fs.remove name s = .ok (true, ⟨d, heap⟩) ∧
      (directoryAt s.disk).findIndex name = some i ∧ Removed s.disk i d := by
  obtain ⟨dir, heap₁, hdir, hagree⟩ := hm.fetchDirectory_run
  unfold FileSystem.remove
  rw [bind_run hdir]
  cases hf : (directoryAt s.disk).findIndex name with
  | none =>
    refine Or.inl ⟨heap₁, ?_, rfl⟩
    simp only [find_none hagree hf]
    rfl
  | some i =>
    have hi := mem_entriesInUse.2 (Directory.findIndex_some hf)
    have hmem := entrySector_mem hi
    have hfind := h.find_some hagree hf
    obtain ⟨n, hn⟩ : ∃ n, entrySector s.disk i = n := ⟨_, rfl⟩
    rw [hn] at hmem hfind
    have hlt := h.header_lt hmem
    obtain ⟨hdr₀, heap₂, hnew⟩ := newHeader_run { s with heap := heap₁ }
    have hfetch := FileHeader.fetchFrom_run hlt hdr₀ { s with heap := heap₂ }
    obtain ⟨freeMap, heap₃, hmap, hbits⟩ :=
      Mounted.fetchFreeMap_run (s := { s with heap := heap₂ }) hm
    obtain ⟨freeMap', hdealloc, hclear, hbits'⟩ := h.free_run hmem hbits { s with heap := heap₃ }
    obtain ⟨d₁, heap₄, hwrite₁, hmap₁, hch₁⟩ := BitMap.writeBack_run (freeMap'.clearBit n)
      hm.mapFile_covers hm.mapFile_nodup hm.mapFile_length.ge { s with heap := heap₃ }
    obtain ⟨d₂, heap₅, hwrite₂, hdir₂, hch₂⟩ := Directory.writeBack_run (dir.setInUse i false)
      hm.dirFile_covers hm.dirFile_nodup hm.dirFile_length ⟨d₁, heap₄⟩
    rw [hm.map_hdr] at hmap₁ hch₁
    rw [hm.dir_hdr] at hdir₂ hch₂
    have hchanges : ChangesOnly (metaSectors s.disk) s.disk d₂ :=
      (hch₁.trans hch₂).mono fun m hm => List.mem_append.2 (List.mem_append.1 hm).symm
    have hold : ∀ m ∈ headerSectors s.disk, headerAt d₂ m = headerAt s.disk m := fun m hm =>
      hchanges.headerAt (h.header_not_meta hm)
    refine Or.inr ⟨i, d₂, heap₅, ?_, rfl, hi, ?_, fun m hm => ?_, hchanges⟩
    · have hremove : dir.remove name = (true, dir.setInUse i false) := by
        unfold Directory.remove
        rw [hagree.findIndex, hf]
      simp only [hfind, hremove]
      rw [if_neg (fun he => by cases he), bind_run hnew, bind_run hfetch, bind_run hmap,
        bind_run hdealloc, bind_run hclear, bind_run hwrite₁, bind_run hwrite₂]
      rfl
    · refine Directory.Agree.trans (fun k hk => ?_) (hdir₂.trans (hagree.setInUse i false))
      unfold directoryAt
      rw [hold _ directorySector_mem]
    · unfold freeMapAt
      rw [hold _ freeMapSector_mem, hn]
      have hkept : (BitMap.ofBytes (fileByte d₂ (headerAt s.disk FreeMapSector)) :
          BitMap NumSectors).isSet m = (freeMap'.clearBit n).isSet m := by
        rw [← hmap₁ m hm]
        refine BitMap.isSet_congr hm fun k hk => hch₂.fileByte (fun x hx hx' => ?_) ?_
        · exact h.dir_not_map hx' hx
        · exact (h.covers freeMapSector_mem).div_lt (by rw [h.map_length]; exact hk)
      exact hkept.trans (hbits' m hm)

/-! ### Formatting -/

/-- `Allocate` on a map whose free sectors are those from `a` on. -/
theorem allocateFixed_run (hdr : FileHeader) {fileSize : ℕ}
    (hsize : (BitVec.ofNat 32 fileSize).toInt.toNat = fileSize) {a m k : ℕ}
    (hfree : freeMap.clearBits.map Fin.val = List.range' a (k + m))
    (hk : divRoundUp fileSize SectorSize = k) (hfit : k ≤ NumDirect) (s : FsState) :
    ∃ hdr' freeMap', allocateFixed hdr freeMap fileSize s = .ok ((hdr', freeMap'), s) ∧
      hdr'.length = fileSize ∧ hdr'.WellFormed ∧ hdr'.sectors = List.range' a k ∧
      freeMap'.clearBits.map Fin.val = List.range' (a + k) m := by
  have hlen : freeMap.clearBits.length = k + m := by
    rw [← List.length_map (f := Fin.val), hfree, List.length_range']
  have hneed : sectorsFor (.ofNat 32 fileSize) = k := by rw [sectorsFor, hsize, hk]
  have hroom : sectorsFor (.ofNat 32 fileSize) ≤ freeMap.clearBits.length := by omega
  obtain ⟨hdr', freeMap', halloc, hbytes, hcount, hsectors, hleft⟩ :=
    FileHeader.allocate_run hdr (hneed.trans_le hfit) hroom s
  have hlength : hdr'.length = fileSize := by rw [FileHeader.length, hbytes, hsize]
  have hcount' : hdr'.count = k := hcount.trans hneed
  rw [← List.range'_append_1] at hfree
  refine ⟨hdr', freeMap', ?_, hlength, ⟨hcount' ▸ hfit, ?_⟩, ?_, ?_⟩
  · unfold allocateFixed
    rw [bind_run halloc, if_pos rfl]
    rfl
  · rw [hcount', hlength, hk]
  · rw [hsectors, hcount', List.map_take, hfree, List.take_left' (List.length_range' ..)]
  · rw [hleft, hcount', List.map_drop, hfree, List.drop_left' (List.length_range' ..)]

/-- The second half of formatting leaves the two files on the disk. -/
theorem flushFormat_run {mapFile dirFile : OpenFile} (freeMap : BitMap NumSectors)
    (dir : Directory NumDirEntries) (hmap : mapFile.hdr.Covers) (hdir : dirFile.hdr.Covers)
    (hlength₁ : mapFile.hdr.length = FreeMapFileSize)
    (hlength₂ : dirFile.hdr.length = DirectoryFileSize)
    (hsectors₁ : mapFile.hdr.sectors = [2]) (hsectors₂ : dirFile.hdr.sectors = [3, 4])
    (s : FsState) :
    ∃ d heap, FileSystem.flushFormat mapFile.hdr dirFile.hdr freeMap dir s =
        .ok (⟨⟨mapFile.hdr, 0⟩, ⟨dirFile.hdr, 0⟩⟩, ⟨d, heap⟩) ∧
      headerAt d FreeMapSector = mapFile.hdr ∧ headerAt d DirectorySector = dirFile.hdr ∧
      (directoryAt d).Agree dir ∧ ∀ m < NumSectors, (freeMapAt d).isSet m = freeMap.isSet m := by
  obtain ⟨d₁, hwrite₁, hhdr₁, hch₁⟩ :=
    FileHeader.writeBack_run (n := FreeMapSector) (by decide) mapFile.hdr s
  obtain ⟨d₂, hwrite₂, hhdr₂, hch₂⟩ :=
    FileHeader.writeBack_run (n := DirectorySector) (by decide) dirFile.hdr { s with disk := d₁ }
  obtain ⟨heap₁, hopen₁⟩ :=
    OpenFile.new_run (n := FreeMapSector) (by decide) { s with disk := d₂ }
  obtain ⟨heap₂, hopen₂⟩ := OpenFile.new_run (n := DirectorySector) (by decide) ⟨d₂, heap₁⟩
  have hmapHdr : headerAt d₂ FreeMapSector = mapFile.hdr :=
    (hch₂.headerAt (by decide)).trans hhdr₁
  rw [show headerAt _ FreeMapSector = mapFile.hdr from hmapHdr] at hopen₁
  rw [show headerAt _ DirectorySector = dirFile.hdr from hhdr₂] at hopen₂
  obtain ⟨d₃, heap₃, hwrite₃, hbits, hch₃⟩ := BitMap.writeBack_run freeMap
    (show (⟨mapFile.hdr, 0⟩ : OpenFile).hdr.Covers from hmap) (by simp [hsectors₁]) hlength₁.ge
    ⟨d₂, heap₂⟩
  obtain ⟨d₄, heap₄, hwrite₄, hagree, hch₄⟩ := Directory.writeBack_run dir
    (show (⟨dirFile.hdr, 0⟩ : OpenFile).hdr.Covers from hdir) (by simp [hsectors₂]) hlength₂
    ⟨d₃, heap₃⟩
  rw [show OpenFile.hdr ⟨mapFile.hdr, 0⟩ = mapFile.hdr from rfl] at hbits hch₃
  rw [show OpenFile.hdr ⟨dirFile.hdr, 0⟩ = dirFile.hdr from rfl] at hagree hch₄
  have hmap₄ : headerAt d₄ FreeMapSector = mapFile.hdr := by
    rw [(hch₃.trans hch₄).headerAt (by rw [hsectors₁, hsectors₂]; decide), hmapHdr]
  have hdir₄ : headerAt d₄ DirectorySector = dirFile.hdr := by
    rw [(hch₃.trans hch₄).headerAt (by rw [hsectors₁, hsectors₂]; decide), hhdr₂]
  refine ⟨d₄, heap₄, ?_, hmap₄, hdir₄, ?_, fun m hm => ?_⟩
  · unfold FileSystem.flushFormat
    rw [bind_run hwrite₁, bind_run hwrite₂, bind_run hopen₁, bind_run hopen₂, bind_run hwrite₃,
      bind_run hwrite₄]
    rfl
  · unfold directoryAt
    rw [hdir₄]
    exact hagree
  · unfold freeMapAt
    rw [hmap₄, ← hbits m hm]
    refine BitMap.isSet_congr hm fun k hk =>
      hch₄.fileByte ?_ (hmap.div_lt (by rw [hlength₁]; exact hk))
    rw [hsectors₁, hsectors₂]
    decide

/-- The sectors of an empty file system are owned. -/
theorem owned_of_empty {d : Mem} {mapHdr dirHdr : FileHeader}
    (hhdr₁ : headerAt d FreeMapSector = mapHdr) (hhdr₂ : headerAt d DirectorySector = dirHdr)
    (hlength₁ : mapHdr.length = FreeMapFileSize) (hlength₂ : dirHdr.length = DirectoryFileSize)
    (hwf₁ : mapHdr.WellFormed) (hwf₂ : dirHdr.WellFormed) (hsectors₁ : mapHdr.sectors = [2])
    (hsectors₂ : dirHdr.sectors = [3, 4]) (hnone : entriesInUse d = [])
    (hclear : (freeMapAt d).clearBits.map Fin.val = List.range' 5 1019) : Owned d := by
  have hheaders : headerSectors d = [FreeMapSector, DirectorySector] := by
    unfold headerSectors
    rw [hnone]
    rfl
  have howned : owned d = [0, 2, 1, 3, 4] := by
    unfold owned
    rw [hheaders]
    show sectorsOf d FreeMapSector ++ (sectorsOf d DirectorySector ++ []) = _
    rw [sectorsOf, sectorsOf, hhdr₁, hhdr₂, hsectors₁, hsectors₂]
    rfl
  refine ⟨hhdr₁ ▸ hlength₁, hhdr₂ ▸ hlength₂, ?_, ?_, ?_, fun m hm => ?_⟩
  · rw [hheaders]
    intro n hn
    rcases List.mem_pair.1 hn with rfl | rfl
    · rw [hhdr₁]
      exact hwf₁
    · rw [hhdr₂]
      exact hwf₂
  · rw [howned]
    decide
  · rw [howned]
    decide
  · rw [← Bool.not_eq_false, ← BitMap.mem_map_clearBits hm, hclear, howned, List.mem_range'_1]
    simp only [List.mem_cons, List.not_mem_nil, or_false]
    unfold NumSectors SectorsPerTrack NumTracks at hm
    omega

/-- **A formatted disk**: there are no files, and the free map marks the five sectors of its own
file and of the directory. -/
theorem format_run (s : FsState) :
    ∃ fs t, FileSystem.format s = .ok (fs, t) ∧ Owned t.disk ∧ Mounted fs t.disk ∧
      entriesInUse t.disk = [] ∧ (freeMapAt t.disk).clearBits.map Fin.val = List.range' 5 1019 := by
  obtain ⟨words, heap₁, hmap⟩ := newFreeMap_run s
  obtain ⟨block, heap₂, hdir⟩ := newDirectory_run { s with heap := heap₁ }
  obtain ⟨hdr₁, heap₃, hnew₁⟩ := newHeader_run { s with heap := heap₂ }
  obtain ⟨hdr₂, heap₄, hnew₂⟩ := newHeader_run { s with heap := heap₃ }
  have hclear₀ := BitMap.clearBits_new (n := NumSectors) words
  have hclear₁ := BitMap.clearBits_setBit_first (m := 1023) hclear₀
  have hclear₂ := BitMap.clearBits_setBit_first (m := 1022) hclear₁
  obtain ⟨mapHdr, freeMap₁, halloc₁, hlength₁, hwf₁, hsectors₁, hleft₁⟩ :=
    allocateFixed_run hdr₁ (show _ = FreeMapFileSize by decide) (m := 1021) (k := 1) hclear₂
      (by decide) (by decide) { s with heap := heap₄ }
  obtain ⟨dirHdr, freeMap₂, halloc₂, hlength₂, hwf₂, hsectors₂, hleft₂⟩ :=
    allocateFixed_run hdr₂ (show _ = DirectoryFileSize by decide) (m := 1019) (k := 2) hleft₁
      (by decide) (by decide) { s with heap := heap₄ }
  obtain ⟨mapFile, rfl⟩ : ∃ file : OpenFile, mapHdr = file.hdr := ⟨⟨mapHdr, 0⟩, rfl⟩
  obtain ⟨dirFile, rfl⟩ : ∃ file : OpenFile, dirHdr = file.hdr := ⟨⟨dirHdr, 0⟩, rfl⟩
  obtain ⟨d, heap₅, hflush, hhdr₁, hhdr₂, hagree, hbits⟩ :=
    flushFormat_run freeMap₂ (.new block) (hwf₁.covers (by rw [hsectors₁]; decide))
      (hwf₂.covers (by rw [hsectors₂]; decide)) hlength₁ hlength₂ hsectors₁ hsectors₂
      { s with heap := heap₄ }
  have hnone : entriesInUse d = [] := by
    refine List.filter_eq_nil_iff.2 fun i hi => ?_
    rw [hagree.inUse (List.mem_range.1 hi), Directory.inUse_new block (List.mem_range.1 hi)]
    decide
  have hclear : (freeMapAt d).clearBits.map Fin.val = List.range' 5 1019 := by
    rw [BitMap.clearBits_congr fun i => hbits i i.isLt]
    exact hleft₂
  have hinv : Owned d := owned_of_empty hhdr₁ hhdr₂ hlength₁ hlength₂ hwf₁ hwf₂ hsectors₁ hsectors₂
    hnone hclear
  refine ⟨⟨⟨mapFile.hdr, 0⟩, ⟨dirFile.hdr, 0⟩⟩, ⟨d, heap₅⟩, ?_, hinv,
    hinv.mounted hhdr₁.symm hhdr₂.symm, hnone, hclear⟩
  have hmark : ∀ (b : BitMap NumSectors) (i : Fin NumSectors) (t : FsState),
      fromKernel (b.mark ((i : ℕ) : ℤ)) t = .ok (b.setBit i, t) := by
    intro b i t
    rw [BitMap.mark_fin]
    rfl
  unfold FileSystem.format
  rw [bind_run hmap, bind_run hdir, bind_run hnew₁, bind_run hnew₂,
    bind_run (hmark _ ⟨FreeMapSector, by decide⟩ _),
    bind_run (hmark _ ⟨DirectorySector, by decide⟩ _),
    bind_run halloc₁, bind_run halloc₂]
  exact hflush

end Nachos
