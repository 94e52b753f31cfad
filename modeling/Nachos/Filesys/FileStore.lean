import Nachos.Filesys.Contents
import Nachos.Filesys.Create
import Nachos.Filesys.NameMap
import Nachos.Filesys.StaleHandle

/-!
# The file system as a store of byte strings

A user of the file system sees names and the bytes of the files.  `FileStore` is this view: a map
from names, cut off as the directory cuts them off, to strings of bytes, and the names of the open
files.  Its steps say what each call answers; the only freedom they leave is in the bytes of a new
file.

* `FsSystem.call`: the calls of the code, with what they answer, and `FileSystem(false)` on the disk
  that an earlier run has left.
* `Shows`: the store that a disk and its open files show.
* `file_system_is_store`: the calls and answers of a run of the code are those of a run of the
  store, and no call breaks off.
-/

namespace Nachos

open ByteMemory (Mem)
open Function Transition
open SlotTable (Represents)
open Fallible

/-! ### The store -/

/-- A call of the file system, or of an open file; `mount` is a new start of the kernel. -/
inductive StoreCall
  | create (name : Mem) (initialSize : BitVec 32)
  | openFile (name : Mem)
  | remove (name : Mem)
  | readAt (k : ℕ) (into : Mem) (numBytes position : BitVec 32)
  | writeAt (k : ℕ) (src : Mem) (numBytes position : BitVec 32)
  | mount (heap : ℕ → Mem)

/-- What the caller is told. -/
inductive StoreAnswer
  | done
  | success (b : Bool)
  | bytes (l : List Byte)
  | count (n : ℤ)

/-- The files by name, and the names of the open files. -/
structure FileStore where
  files : List Byte → Option (List Byte)
  handles : List (List Byte)

/-- At most `n` bytes of a file, from `p` on. -/
def bytesAt (bytes : List Byte) (n p : ℤ) : List Byte := (bytes.drop p.toNat).take n.toNat

/-- At most `n` bytes are written over those of a file, from `p` on. -/
def storeAt (bytes : List Byte) (src : Mem) (n p : ℤ) : List Byte :=
  bytes.mapIdx fun k b => if p.toNat ≤ k ∧ k < p.toNat + n.toNat then src (k - p.toNat) else b

namespace FileStore

/-- A disk without files. -/
def empty : FileStore := ⟨fun _ => none, []⟩

/-- The names of the files. -/
def names (m : FileStore) : Set (List Byte) := {key | m.files key ≠ none}

/-- What the calls do, and what they answer. -/
inductive Step (m : FileStore) : StoreCall × StoreAnswer → FileStore → Prop
  | created {name : Mem} {size : BitVec 32} {bytes : List Byte}
      (hnew : m.files (truncated name) = none) (hroom : m.names.ncard < NumDirEntries)
      (hlength : bytes.length = size.toInt.toNat) :
      Step m (.create name size, .success true)
        { m with files := update m.files (truncated name) (some bytes) }
  | notCreated {name : Mem} {size : BitVec 32}
      (h : m.files (truncated name) ≠ none ∨ NumDirEntries ≤ m.names.ncard) :
      Step m (.create name size, .success false) m
  | opened {name : Mem} (h : m.files (truncated name) ≠ none) :
      Step m (.openFile name, .success true) { m with handles := m.handles ++ [truncated name] }
  | notOpened {name : Mem} (h : m.files (truncated name) = none) :
      Step m (.openFile name, .success false) m
  | removed {name : Mem} (h : m.files (truncated name) ≠ none) :
      Step m (.remove name, .success true)
        { m with files := update m.files (truncated name) none }
  | notRemoved {name : Mem} (h : m.files (truncated name) = none) :
      Step m (.remove name, .success false) m
  | readAt {k : ℕ} {into : Mem} {n p : BitVec 32} {key bytes : List Byte}
      (hk : m.handles[k]? = some key) (h : m.files key = some bytes) :
      Step m (.readAt k into n p, .bytes (bytesAt bytes n.toInt p.toInt)) m
  | writeAt {k : ℕ} {src : Mem} {n p : BitVec 32} {key bytes : List Byte}
      (hk : m.handles[k]? = some key) (h : m.files key = some bytes) :
      Step m (.writeAt k src n p, .count (bytesAt bytes n.toInt p.toInt).length)
        { m with files := update m.files key (some (storeAt bytes src n.toInt p.toInt)) }
  | mount {heap : ℕ → Mem} : Step m (.mount heap, .done) { m with handles := [] }

end FileStore

/-! ### The code -/

/-- What a call returns, and the state then.  A new start of the kernel finds the disk, and its own
heap; for an open file that there is not, nothing is called. -/
def FsSystem.call (s : FsSystem) : StoreCall → Except FsFault (StoreAnswer × FsSystem)
  | .create name size => do
    let r ← s.fs.create name size s.mem
    return (.success r.1, { s with mem := r.2 })
  | .openFile name => do
    let r ← s.fs.openFile name s.mem
    return (.success r.1.isSome, { s with
      mem := r.2
      handles := s.handles ++ r.1.toList.map fun file => ⟨file, s.sectorOf name, false⟩ })
  | .remove name => do
    let r ← s.fs.remove name s.mem
    return (.success r.1, { s with
      mem := r.2
      handles := if r.1 then s.handles.map (.afterRemove (s.sectorOf name)) else s.handles })
  | .readAt k into n p =>
    match s.handles[k]? with
    | none => .ok (.done, s)
    | some handle => do
      let r ← handle.file.readAt into 0 n.toInt p.toInt s.mem
      return (.bytes ((List.range r.1.1.toNat).map r.1.2), { s with mem := r.2 })
  | .writeAt k src n p =>
    match s.handles[k]? with
    | none => .ok (.done, s)
    | some handle => do
      let r ← handle.file.writeAt src n.toInt p.toInt s.mem
      return (.count r.1, { s with mem := r.2 })
  | .mount heap => do
    let r ← FileSystem.mount ⟨s.mem.disk, heap⟩
    return (.done, ⟨r.1, r.2, []⟩)

/-- The calls whose answer the store knows; a new file has a size that a header can describe. -/
def StoreCall.Legal (s : FsSystem) : StoreCall → Prop
  | .create _ size => size.toInt ≤ MaxFileSize
  | .readAt k _ n p => s.CanTransfer k n.toInt p.toInt
  | .writeAt k _ n p => s.CanTransfer k n.toInt p.toInt
  | _ => True

/-- A call of this kind returns. -/
def CallReturns (s : FsSystem) (e : StoreCall × StoreAnswer) (s' : FsSystem) : Prop :=
  e.1.Legal s ∧ s.call e.1 = .ok (e.2, s')

/-! ### What a disk shows -/

/-- The bytes of the file whose header a directory entry names. -/
def contentsAt (disk : Mem) (sector : BitVec 32) : List Byte :=
  fileBytes disk (headerAt disk sector.toNat)

/-- An open file is that of a name, unless its file has been removed. -/
def ShowsHandle (disk : Mem) (h : FsHandle) (key : List Byte) : Prop :=
  h.removed = false → ∃ i sector, (directoryAt disk).slots i = some (key, sector) ∧
    sector.toNat = h.sector

/-- The file system shows this store. -/
structure Shows (s : FsSystem) (m : FileStore) : Prop where
  inv : FsInv s
  files : ∃ sectors, Represents (directoryAt s.mem.disk).slots sectors ∧
    ∀ key, m.files key = (sectors key).map (contentsAt s.mem.disk)
  handles : List.Forall₂ (ShowsHandle s.mem.disk) s.handles m.handles

/-- A call returns, and the store can do the same. -/
def Matched (s : FsSystem) (m : FileStore) (c : StoreCall) : Prop :=
  ∃ a s' m', s.call c = .ok (a, s') ∧ FileStore.Step m (c, a) m' ∧ Shows s' m'

/-! ### Reading and writing -/

section bytes

variable {file : OpenFile} {d : Mem} {hdr : FileHeader} {n p : ℤ}

theorem length_fileBytes : (fileBytes d hdr).length = hdr.length := by simp [fileBytes]

theorem bytesAt_fileBytes :
    bytesAt (fileBytes d hdr) n p = (List.range (min n.toNat (hdr.length - p.toNat))).map
      fun k => fileByte d hdr (p.toNat + k) := by
  unfold bytesAt fileBytes
  refine List.ext_getElem (by simp) fun k hk hk' => ?_
  simp

/-- `ReadAt` answers with the bytes at this place. -/
theorem OpenFile.readAt_bytes (h : file.hdr.Covers) (into : Mem) (hp : 0 ≤ p)
    (hend : p + n ≤ INTMAX) (s : FsState) :
    ∃ into' heap, file.readAt into 0 n p s =
        .ok ((((bytesAt (fileBytes s.disk file.hdr) n p).length : ℤ), into'),
          { s with heap := heap }) ∧
      (List.range (bytesAt (fileBytes s.disk file.hdr) n p).length).map into' =
        bytesAt (fileBytes s.disk file.hdr) n p := by
  obtain ⟨p, rfl⟩ := Int.eq_ofNat_of_zero_le hp
  rw [bytesAt_fileBytes, List.length_map, List.length_range]
  by_cases hn : n ≤ 0
  · refine ⟨into, s.heap, ?_, ?_⟩
    · rw [readAt_none (Or.inl hn), show n.toNat = 0 by omega, Nat.zero_min]
      rfl
    · rw [show n.toNat = 0 by omega, Nat.zero_min]
      rfl
  · obtain ⟨n, rfl⟩ := Int.eq_ofNat_of_zero_le (show 0 ≤ n by omega)
    obtain ⟨heap, hrun⟩ := readAt_run h into 0 hend s
    refine ⟨_, heap, hrun, ?_⟩
    refine List.map_congr_left fun k hk => ?_
    have hk := List.mem_range.1 hk
    rw [ByteMemory.copy_of_mem (by omega) (by unfold transfer; simp at hk ⊢; omega), Nat.sub_zero]
    rfl

/-- `WriteAt` stores the bytes at this place. -/
theorem OpenFile.writeAt_bytes (h : file.hdr.Covers) (hnd : file.hdr.sectors.Nodup) (src : Mem)
    (hp : 0 ≤ p) (hend : p + n ≤ INTMAX) (s : FsState) :
    ∃ d heap, file.writeAt src n p s =
        .ok (((bytesAt (fileBytes s.disk file.hdr) n p).length : ℤ), ⟨d, heap⟩) ∧
      fileBytes d file.hdr = storeAt (fileBytes s.disk file.hdr) src n p ∧
      ChangesOnly file.hdr.sectors s.disk d := by
  obtain ⟨p, rfl⟩ := Int.eq_ofNat_of_zero_le hp
  rw [bytesAt_fileBytes, List.length_map, List.length_range]
  by_cases hn : n ≤ 0
  · have hzero : n.toNat = 0 := by omega
    refine ⟨s.disk, s.heap, ?_, ?_, fun _ _ => rfl⟩
    · rw [writeAt_none (Or.inl hn), hzero, Nat.zero_min]
      rfl
    · unfold storeAt
      refine List.ext_getElem (by simp) fun k hk hk' => ?_
      rw [List.getElem_mapIdx, if_neg (by omega)]
  · obtain ⟨n, rfl⟩ := Int.eq_ofNat_of_zero_le (show 0 ≤ n by omega)
    obtain ⟨d, heap, hrun, hbytes, hframe⟩ := writeAt_run h hnd src hend s
    refine ⟨d, heap, hrun, ?_, hframe⟩
    unfold storeAt
    refine List.ext_getElem (by simp [fileBytes]) fun k hk hk' => ?_
    rw [length_fileBytes] at hk
    rw [List.getElem_mapIdx]
    simp only [fileBytes, List.getElem_map, List.getElem_range]
    rw [hbytes k hk]
    refine if_congr ?_ rfl rfl
    unfold transfer
    simp only [Int.toNat_natCast]
    omega

end bytes

/-! ### There is always room -/

variable {size : BitVec 32} {k : ℕ}

section room

variable {d : Mem}

/-- Every sector has an owner or is free. -/
theorem Owned.length_le (h : Owned d) :
    NumSectors ≤ (freeMapAt d).clearBits.length + (owned d).length := by
  have hsub : List.range NumSectors ⊆ (freeMapAt d).clearBits.map Fin.val ++ owned d := by
    intro n hn
    have hn := List.mem_range.1 hn
    by_cases ho : n ∈ owned d
    · exact List.mem_append_right _ ho
    · exact List.mem_append_left _ (List.mem_map.2 ⟨⟨n, hn⟩, h.mem_clearBits.2 ho, rfl⟩)
  have hle := (List.nodup_range.subperm hsub).length_le
  rwa [List.length_range, List.length_append, List.length_map] at hle

/-- The directory file and the free map have five sectors, and a file 31 at most. -/
theorem Owned.owned_length_le (h : Owned d) :
    (owned d).length ≤ 5 + 31 * (entriesInUse d).length := by
  have hcount : ∀ n ∈ headerSectors d,
      (sectorsOf d n).length = divRoundUp (headerAt d n).length SectorSize + 1 := by
    intro n hn
    rw [sectorsOf, List.length_cons, FileHeader.length_sectors, (h.wellFormed n hn).count_eq]
  have hmap := hcount _ freeMapSector_mem
  have hdir := hcount _ directorySector_mem
  rw [h.map_length] at hmap
  rw [h.dir_length] at hdir
  have hsum : ((entriesInUse d).map fun i => (sectorsOf d (entrySector d i)).length).sum ≤
      31 * (entriesInUse d).length := by
    refine (List.sum_le_card_nsmul _ 31 ?_).trans ?_
    · intro x hx
      obtain ⟨i, hi, rfl⟩ := List.mem_map.1 hx
      have hle := (h.wellFormed _ (entrySector_mem hi)).count_le
      rw [sectorsOf, List.length_cons, FileHeader.length_sectors]
      unfold NumDirect at hle
      omega
    · rw [List.length_map, smul_eq_mul, Nat.mul_comm]
  unfold owned headerSectors
  rw [List.flatMap_cons, List.flatMap_cons, List.length_append, List.length_append, hmap, hdir,
    List.length_flatMap, List.map_map]
  have hfixed : divRoundUp FreeMapFileSize SectorSize + 1 +
      (divRoundUp DirectoryFileSize SectorSize + 1) = 5 := by decide
  rw [show (fun n => (sectorsOf d n).length) ∘ entrySector d =
    fun i => (sectorsOf d (entrySector d i)).length from rfl]
  omega

/-- A file that fits into a header is created iff its name is new and the directory has an entry
left: the sectors last for ten files of any size. -/
theorem Owned.creatable_iff (h : Owned d) (name : Mem) (hsize : size.toInt ≤ MaxFileSize) :
    Creatable d name size ↔
      (directoryAt d).findIndex name = none ∧ (directoryAt d).freeIndex ≠ none := by
  refine ⟨fun ⟨hname, hfree, _⟩ => ⟨hname, hfree⟩, fun ⟨hname, hfree⟩ => ⟨hname, hfree, ?_⟩⟩
  have hsectors := sectorsFor_le hsize
  obtain ⟨i, hi, hunused⟩ := Directory.freeIndex_ne_none_iff.1 hfree
  -- one of the ten entries is not in use
  have hlt : (entriesInUse d).length < NumDirEntries := by
    unfold entriesInUse
    refine lt_of_lt_of_eq (List.length_filter_lt_length_iff_exists.2 ⟨i, ?_, ?_⟩) List.length_range
    · exact List.mem_range.2 hi
    · rw [hunused]
      exact Bool.false_ne_true
  have hle := h.length_le
  have howned := h.owned_length_le
  unfold NumSectors SectorsPerTrack NumTracks at hle
  unfold NumDirEntries at hlt
  unfold NumDirect at hsectors
  omega

end room

/-! ### What the operations keep of a file -/

section kept

variable {d d' : Mem} {key : List Byte} {x : BitVec 32}

theorem entry_of_slot {i : Fin NumDirEntries} (h : (directoryAt d).slots i = some (key, x)) :
    (i : ℕ) ∈ entriesInUse d ∧ entrySector d i = x.toNat := by
  obtain ⟨hu, -, rfl⟩ := Directory.slots_eq_some.1 h
  exact ⟨mem_entriesInUse.2 ⟨i.isLt, hu⟩, rfl⟩

theorem Owned.entry_inj (h : Owned d) {i j : ℕ} (hi : i ∈ entriesInUse d) (hj : j ∈ entriesInUse d)
    (hij : entrySector d i = entrySector d j) : i = j := by
  have hnd := (List.nodup_cons.1 (List.nodup_cons.1 h.headerSectors_nodup).2).2
  exact List.inj_on_of_nodup_map hnd hi hj hij

theorem contentsAt_congr (hhdr : headerAt d' x.toNat = headerAt d x.toNat)
    (hbytes : ∀ k < (headerAt d x.toNat).length,
      fileByte d' (headerAt d x.toNat) k = fileByte d (headerAt d x.toNat) k) :
    contentsAt d' x = contentsAt d x := by
  unfold contentsAt
  rw [hhdr]
  exact List.map_congr_left fun k hk => hbytes k (List.mem_range.1 hk)

theorem Created.contents_kept {name : Mem} {i n : ℕ} (hc : Created d name size i n d') (h : Owned d)
    {j : Fin NumDirEntries} (hj : (directoryAt d).slots j = some (key, x)) :
    contentsAt d' x = contentsAt d x := by
  obtain ⟨hmem, hsector⟩ := entry_of_slot hj
  obtain ⟨hhdr, hbytes⟩ := hc.file_kept h hmem
  rw [hsector] at hhdr hbytes
  exact contentsAt_congr hhdr hbytes

theorem Removed.contents_kept {i : ℕ} (hr : Removed d i d') (h : Owned d) {j : Fin NumDirEntries}
    (hj : (directoryAt d).slots j = some (key, x)) : contentsAt d' x = contentsAt d x := by
  obtain ⟨hmem, hsector⟩ := entry_of_slot hj
  have hheader := entrySector_mem hmem
  obtain ⟨-, hmeta⟩ := h.file_apart hmem
  rw [hsector] at hheader hmeta
  refine contentsAt_congr (hr.headerAt_eq h hheader) fun k hk => ?_
  exact hr.changes.fileByte (fun m hm hm' => hmeta m hm' hm) ((h.covers hheader).div_lt hk)

end kept

theorem forall₂_getElem? {α β : Type*} {R : α → β → Prop} {l : List α} {l' : List β}
    (h : List.Forall₂ R l l') {a : α} (hk : l[k]? = some a) : ∃ b, l'[k]? = some b ∧ R a b := by
  obtain ⟨hlt, rfl⟩ := List.getElem?_eq_some_iff.1 hk
  have hlt' : k < l'.length := h.length_eq ▸ hlt
  exact ⟨l'[k], List.getElem?_eq_getElem hlt', h.get hlt hlt'⟩

/-- The files of a disk on which one entry of the directory and one file have changed. -/
theorem files_update {files : List Byte → Option (List Byte)}
    {sectors : List Byte → Option (BitVec 32)} {f f' : BitVec 32 → List Byte} {key₀ : List Byte}
    {bytes : Option (List Byte)} {sector : Option (BitVec 32)}
    (h : ∀ key, files key = (sectors key).map f) (hnew : bytes = sector.map f')
    (hkept : ∀ key x, key ≠ key₀ → sectors key = some x → f' x = f x) (key : List Byte) :
    update files key₀ bytes key = (update sectors key₀ sector key).map f' := by
  by_cases hkey : key = key₀
  · rw [hkey, update_self, update_self, hnew]
  · rw [update_of_ne hkey, update_of_ne hkey, h]
    exact Option.map_congr fun x hx => (hkept key x hkey hx).symm

/-! ### Every call of the code is one of the store -/

namespace Shows

variable {s : FsSystem} {m : FileStore} {name : Mem}

theorem init (h : FsInit s) : Shows s .empty := by
  have hinv := FsInv.init h
  obtain ⟨⟨mem, hformat⟩, hnone⟩ := h
  obtain ⟨fs, t, hrun, -, -, hunused, -⟩ := format_run mem
  rw [hrun] at hformat
  obtain ⟨-, hmem⟩ := Prod.mk.inj (Except.ok.inj hformat)
  refine ⟨hinv, ⟨fun _ => none, SlotTable.represents_empty fun i => ?_, fun _ => rfl⟩, ?_⟩
  · refine Directory.slots_eq_none.2 (Bool.eq_false_iff.2 fun hu => ?_)
    have hi : (i : ℕ) ∈ entriesInUse s.mem.disk := mem_entriesInUse.2 ⟨i.isLt, hu⟩
    rw [← hmem, hunused] at hi
    cases hi
  · rw [hnone]
    exact .nil

theorem files_eq_none_iff (h : Shows s m) :
    m.files (truncated name) = none ↔ (directoryAt s.mem.disk).findIndex name = none := by
  obtain ⟨sectors, hsectors, hfiles⟩ := h.files
  rw [hfiles, Option.map_eq_none_iff, Directory.findIndex_none_iff hsectors]

theorem files_ne_none (h : Shows s m) {i : ℕ}
    (hf : (directoryAt s.mem.disk).findIndex name = some i) : m.files (truncated name) ≠ none := by
  rw [Ne, h.files_eq_none_iff, hf]
  exact Option.some_ne_none i

/-- There is room for another name iff an entry is free. -/
theorem ncard_lt_iff (h : Shows s m) :
    m.names.ncard < NumDirEntries ↔ (directoryAt s.mem.disk).freeIndex ≠ none := by
  obtain ⟨sectors, hsectors, hfiles⟩ := h.files
  have hnames : m.names = {key | sectors key ≠ none} := by
    ext key
    simp [FileStore.names, hfiles]
  have hcard := hsectors.ncard_lt_iff
  rw [Nat.card_fin] at hcard
  rw [hnames, hcard, Directory.freeIndex_ne_none_iff]
  constructor
  · rintro ⟨i, hi⟩
    exact ⟨i, i.isLt, Directory.slots_eq_none.1 hi⟩
  · rintro ⟨i, hi, hu⟩
    exact ⟨⟨i, hi⟩, Directory.slots_eq_none.2 hu⟩

theorem sameDisk (h : Shows s m) (heap : ℕ → Mem) :
    Shows { s with mem := ⟨s.mem.disk, heap⟩ } m :=
  ⟨h.inv.sameDisk rfl, h.files, h.handles⟩

theorem create (h : Shows s m) (hsize : size.toInt ≤ MaxFileSize) :
    Matched s m (.create name size) := by
  have howned := h.inv.owned
  rcases howned.create_run h.inv.mounted name (sectorsFor_le hsize) with
    ⟨heap, hrun, hno⟩ | ⟨i, n, d, heap, hrun, hc, -⟩
  · refine ⟨_, _, m, by rw [FsSystem.call, hrun]; rfl, .notCreated ?_, h.sameDisk heap⟩
    rw [howned.creatable_iff name hsize, ← h.files_eq_none_iff, ← h.ncard_lt_iff] at hno
    by_cases hnew : m.files (truncated name) = none
    · exact Or.inr (not_lt.1 fun hlt => hno ⟨hnew, hlt⟩)
    · exact Or.inl hnew
  · obtain ⟨sectors, hsectors, hfiles⟩ := h.files
    -- the new entry, and the others as they were
    have hi := hc.entry_lt
    have hslots : (directoryAt d).slots = update (directoryAt s.mem.disk).slots ⟨i, hi⟩
        (some (truncated name, .ofNat 32 n)) :=
      hc.dir.slots.trans (Directory.slots_enter ⟨i, hi⟩ name _)
    have hfree := Directory.slots_eq_none (i := ⟨i, hi⟩).2 (Directory.freeIndex_some hc.free).2
    have hn : (BitVec.ofNat 32 n).toNat = n := by
      have hlt := hc.sector_lt howned
      unfold NumSectors SectorsPerTrack NumTracks at hlt
      rw [BitVec.toNat_ofNat]
      omega
    have hlength : (contentsAt d (.ofNat 32 n)).length = size.toInt.toNat := by
      rw [contentsAt, length_fileBytes, hn, FileHeader.length, hc.numBytes]
    have hnone := (Directory.findIndex_none_iff hsectors).1 hc.notFound
    refine ⟨_, _, _, by rw [FsSystem.call, hrun]; rfl,
      .created (h.files_eq_none_iff.2 hc.notFound) (h.ncard_lt_iff.2 ?_) hlength,
      h.inv.create hsize hrun, ⟨_, hslots ▸ hsectors.insert hfree hnone, ?_⟩, ?_⟩
    · rw [hc.free]
      exact Option.some_ne_none i
    · refine files_update hfiles rfl fun key x _ hx => ?_
      obtain ⟨j, hj⟩ := hsectors.denotes.1 hx
      exact hc.contents_kept howned hj
    · refine h.handles.imp fun handle key hshows hlive => ?_
      obtain ⟨j, x, hj, hx⟩ := hshows hlive
      refine ⟨j, x, ?_, hx⟩
      show (directoryAt d).slots j = _
      rw [hslots]
      refine Update.update_eq_of hj ?_
      rw [hfree]
      exact fun he => by cases he

theorem openFile (h : Shows s m) : Matched s m (.openFile name) := by
  obtain ⟨heap, hrun⟩ := h.inv.owned.openFile_run h.inv.mounted name
  cases hf : (directoryAt s.mem.disk).findIndex name with
  | none =>
    rw [hf] at hrun
    refine ⟨_, _, m, by rw [FsSystem.call, hrun]; rfl, .notOpened (h.files_eq_none_iff.2 hf), ?_⟩
    rw [Option.map_none, Option.toList_none, List.map_nil, List.append_nil]
    exact h.sameDisk heap
  | some i =>
    rw [hf] at hrun
    refine ⟨_, _, _, by rw [FsSystem.call, hrun]; rfl, .opened (h.files_ne_none hf),
      h.inv.openFile hrun, h.files, List.rel_append h.handles (.cons (fun _ => ?_) .nil)⟩
    obtain ⟨hi, hslot⟩ := Directory.findIndex_slot hf
    exact ⟨_, _, hslot, (h.inv.owned.sectorOf_eq hf).symm⟩

theorem remove (h : Shows s m) : Matched s m (.remove name) := by
  have howned := h.inv.owned
  rcases howned.remove_run h.inv.mounted name with
    ⟨heap, hrun, hnone⟩ | ⟨i, d, heap, hrun, hf, hr⟩
  · exact ⟨_, _, m, by rw [FsSystem.call, hrun]; rfl, .notRemoved (h.files_eq_none_iff.2 hnone),
      h.sameDisk heap⟩
  obtain ⟨sectors, hsectors, hfiles⟩ := h.files
  obtain ⟨hi, hslot⟩ := Directory.findIndex_slot hf
  have hslots : (directoryAt d).slots =
      update (directoryAt s.mem.disk).slots ⟨i, hi⟩ none :=
    hr.dir.slots.trans (Directory.slots_clear ⟨i, hi⟩)
  refine ⟨_, _, _, by rw [FsSystem.call, hrun]; rfl, .removed (h.files_ne_none hf),
    h.inv.remove hrun, ⟨_, hslots ▸ hsectors.erase hslot, ?_⟩, ?_⟩
  · refine files_update hfiles rfl fun key x _ hx => ?_
    obtain ⟨j, hj⟩ := hsectors.denotes.1 hx
    exact hr.contents_kept howned hj
  · refine List.forall₂_map_left_iff.2 (h.handles.imp fun handle key hshows hlive => ?_)
    unfold FsHandle.afterRemove at hlive
    rw [Bool.or_eq_false_iff, decide_eq_false_iff_not, howned.sectorOf_eq hf] at hlive
    obtain ⟨j, x, hj, hx⟩ := hshows hlive.1
    -- the entry of an open file that stays is another one
    have hji : j ≠ ⟨i, hi⟩ := by
      rintro rfl
      exact hlive.2 (hx.symm.trans (entry_of_slot hj).2.symm)
    refine ⟨j, x, ?_, hx⟩
    show (directoryAt d).slots j = _
    rw [hslots, update_of_ne hji, hj]

/-! #### Open files -/

/-- A live open file in the store. -/
theorem exists_open (h : Shows s m) {handle : FsHandle} (hk : s.handles[k]? = some handle)
    (hlive : handle.removed = false) :
    ∃ key i x, (directoryAt s.mem.disk).slots i = some (key, x) ∧ x.toNat = handle.sector ∧
      handle.file.hdr = headerAt s.mem.disk x.toNat ∧ handle.file.hdr.Covers ∧
      handle.file.hdr.sectors.Nodup ∧ m.handles[k]? = some key ∧
      m.files key = some (fileBytes s.mem.disk handle.file.hdr) := by
  obtain ⟨key, hkey, hshows⟩ := forall₂_getElem? h.handles hk
  obtain ⟨i, x, hslot, hx⟩ := hshows hlive
  obtain ⟨-, -, -, hhdr⟩ := h.inv.handles handle (List.mem_of_getElem? hk) hlive
  obtain ⟨sectors, hsectors, hfiles⟩ := h.files
  obtain ⟨hentry, hsector⟩ := entry_of_slot hslot
  have hmem := hsector ▸ entrySector_mem hentry
  rw [← hx] at hhdr
  rw [hhdr]
  refine ⟨key, i, x, hslot, hx, rfl, h.inv.owned.covers hmem, h.inv.owned.data_nodup hmem, hkey, ?_⟩
  rw [hfiles, hsectors.denotes.2 ⟨i, hslot⟩]
  rfl

theorem readAt (h : Shows s m) {into : Mem} {n p : BitVec 32}
    (hok : s.CanTransfer k n.toInt p.toInt) : Matched s m (.readAt k into n p) := by
  obtain ⟨⟨handle, hk, hlive⟩, hp, hend⟩ := hok
  obtain ⟨key, -, -, -, -, -, hcovers, -, hkey, hfile⟩ := h.exists_open hk hlive
  obtain ⟨into', heap, hrun, hbytes⟩ := OpenFile.readAt_bytes hcovers into hp hend s.mem
  refine ⟨.bytes (bytesAt (fileBytes s.mem.disk handle.file.hdr) n.toInt p.toInt), _, m, ?_,
    .readAt hkey hfile, h.sameDisk heap⟩
  rw [FsSystem.call, hk]
  dsimp only
  rw [hrun, ← congrArg StoreAnswer.bytes hbytes]
  rfl

theorem writeAt (h : Shows s m) {src : Mem} {n p : BitVec 32}
    (hok : s.CanTransfer k n.toInt p.toInt) : Matched s m (.writeAt k src n p) := by
  have howned := h.inv.owned
  obtain ⟨⟨handle, hk, hlive⟩, hp, hend⟩ := hok
  obtain ⟨key, i, x, hslot, hx, hhdr, hcovers, hnodup, hkey, hfile⟩ := h.exists_open hk hlive
  obtain ⟨d, heap, hrun, hbytes, hch⟩ := OpenFile.writeAt_bytes hcovers hnodup src hp hend s.mem
  have hmem := List.mem_of_getElem? hk
  obtain ⟨-, -, hdir, -, hheaders⟩ := h.inv.write_frame hmem hlive hp hend hrun
  obtain ⟨hentry, hsector⟩ := entry_of_slot hslot
  have hheader := hsector ▸ entrySector_mem hentry
  obtain ⟨sectors, hsectors, hfiles⟩ := h.files
  refine ⟨_, _, _, ?_, .writeAt hkey hfile, h.inv.writeAt hmem hlive hp hend hrun,
    ⟨sectors, hdir.slots.symm ▸ hsectors, fun key' => ?_⟩, ?_⟩
  · rw [FsSystem.call, hk]
    dsimp only
    rw [hrun]
    rfl
  · -- the file, and the others as they were
    have hnew : some (storeAt (fileBytes s.mem.disk handle.file.hdr) src n.toInt p.toInt) =
        (some x).map (contentsAt d) := by
      rw [Option.map_some, contentsAt, hheaders _ hheader, ← hhdr, hbytes]
    have hothers : ∀ key' y, key' ≠ key → sectors key' = some y →
        contentsAt d y = contentsAt s.mem.disk y := by
      intro key' y hne hy
      obtain ⟨j, hj⟩ := hsectors.denotes.1 hy
      obtain ⟨hentry', hsector'⟩ := entry_of_slot hj
      have hheader' := hsector' ▸ entrySector_mem hentry'
      have hyx : y.toNat ≠ x.toNat := by
        intro heq
        have hji := howned.entry_inj hentry' hentry (by rw [hsector', hsector, heq])
        rw [Fin.ext hji, hslot] at hj
        cases hj
        exact hne rfl
      refine contentsAt_congr (hheaders _ hheader') fun k hk => ?_
      exact howned.fileByte_eq hheader' hheader hyx (hhdr ▸ hch) hk
    have hupdate := files_update hfiles hnew hothers key'
    rwa [← hsectors.denotes.2 ⟨i, hslot⟩, update_eq_self] at hupdate
  · refine h.handles.imp fun handle key hshows hlive => ?_
    obtain ⟨j, y, hj, hy⟩ := hshows hlive
    exact ⟨j, y, hdir.slots.symm ▸ hj, hy⟩

theorem mount (h : Shows s m) (heap : ℕ → Mem) : Matched s m (.mount heap) := by
  obtain ⟨heap₁, h₁⟩ :=
    OpenFile.new_run (show FreeMapSector < NumSectors by decide) ⟨s.mem.disk, heap⟩
  obtain ⟨heap₂, h₂⟩ :=
    OpenFile.new_run (show DirectorySector < NumSectors by decide) ⟨s.mem.disk, heap₁⟩
  have hrun : s.call (.mount heap) = .ok (.done, ⟨⟨⟨headerAt s.mem.disk FreeMapSector, 0⟩,
      ⟨headerAt s.mem.disk DirectorySector, 0⟩⟩, ⟨s.mem.disk, heap₂⟩, []⟩) := by
    rw [FsSystem.call, FileSystem.mount, bind_run h₁, bind_run h₂]
    rfl
  exact ⟨_, _, _, hrun, .mount,
    ⟨h.inv.owned, h.inv.owned.mounted rfl rfl, fun _ hmem => by cases hmem⟩, h.files, .nil⟩

/-- **A call of the code is one of the store.** -/
theorem call (h : Shows s m) : ∀ c : StoreCall, c.Legal s → Matched s m c
  | .create _ _, hlegal => h.create hlegal
  | .openFile _, _ => h.openFile
  | .remove _, _ => h.remove
  | .readAt _ _ _ _, hlegal => h.readAt hlegal
  | .writeAt _ _ _ _, hlegal => h.writeAt hlegal
  | .mount heap, _ => h.mount heap

end Shows

/-- **The file system is a store of byte strings.**  A disk is formatted, and files are created,
opened, read, written and removed in any order, with new starts of the kernel in between.  The calls
and the answers are those of a run of the store; in particular a file is what has been written to
it, whatever is done to other files, and `Create` fails only for a name that is there and when there
are ten files.  Every call returns. -/
theorem file_system_is_store {s₀ s : FsSystem} {trace : List (StoreCall × StoreAnswer)}
    (h₀ : FsInit s₀) (h : Run CallReturns s₀ trace s) :
    (∃ m, Run FileStore.Step .empty trace m ∧ Shows s m) ∧
      ∀ c : StoreCall, c.Legal s → ∃ a s', CallReturns s (c, a) s' := by
  have hstep : ∀ s m e s', Shows s m → CallReturns s e s' →
      ∃ m', FileStore.Step m e m' ∧ Shows s' m' := by
    rintro s m ⟨c, a⟩ s' hshows ⟨hlegal, hcall⟩
    obtain ⟨a', t, m', hcall', hst, ht⟩ := hshows.call c hlegal
    rw [hcall'] at hcall
    cases hcall
    exact ⟨m', hst, ht⟩
  obtain ⟨m, hrun, hshows⟩ := h.simulation hstep (Shows.init h₀)
  refine ⟨⟨m, hrun, hshows⟩, fun c hlegal => ?_⟩
  obtain ⟨a, s', -, hcall, -⟩ := hshows.call c hlegal
  exact ⟨a, s', hlegal, hcall⟩

/-- The calls of a user, with the answers: the file `a` is created and opened, a byte is written and
read back, the kernel is started again, and the file is removed. -/
def session : List (StoreCall × StoreAnswer) :=
  [(.create (oneChar 97) 128#32, .success true), (.openFile (oneChar 97), .success true),
    (.writeAt 0 (oneChar 88) 1 0, .count 1), (.readAt 0 (fun _ => 0) 1 0, .bytes [88]),
    (.mount fun _ _ => 0, .done), (.remove (oneChar 97), .success true)]

/-- `Open` of a file that is there yields an open file. -/
theorem FsSystem.handles_openFile {s s' : FsSystem} {name : Mem}
    (h : s.call (.openFile name) = .ok (.success true, s')) :
    ∃ handle, s'.handles = s.handles ++ [handle] ∧ handle.removed = false := by
  rw [FsSystem.call] at h
  cases hrun : s.fs.openFile name s.mem with
  | error e =>
    rw [hrun] at h
    cases h
  | ok r =>
    obtain ⟨file, mem⟩ := r
    rw [hrun] at h
    cases file with
    | none => cases h
    | some file =>
      cases h
      exact ⟨_, rfl, rfl⟩

/-- `WriteAt` keeps the open files. -/
theorem FsSystem.handles_writeAt {s s' : FsSystem} {src : Mem} {n p : BitVec 32} {a : StoreAnswer}
    (h : s.call (.writeAt k src n p) = .ok (a, s')) : s'.handles = s.handles := by
  rw [FsSystem.call] at h
  cases hk : s.handles[k]? with
  | none =>
    rw [hk] at h
    cases h
    rfl
  | some handle =>
    rw [hk] at h
    dsimp only at h
    cases hrun : handle.file.writeAt src n.toInt p.toInt s.mem with
    | error e =>
      rw [hrun] at h
      cases h
    | ok r =>
      rw [hrun] at h
      cases h
      rfl

/-- The session on a new disk. -/
theorem file_system_is_store_session : ∃ s₀ s : FsSystem, ∃ m, FsInit s₀ ∧
    Run CallReturns s₀ session s ∧ Run FileStore.Step .empty session m ∧ Shows s m := by
  obtain ⟨key, hkey⟩ : ∃ key, truncated (oneChar 97) = key := ⟨_, rfl⟩
  obtain ⟨fs, t, hformat, -⟩ := format_run ⟨fun _ => 0, fun _ _ => 0⟩
  have h₀ : FsInit ⟨fs, t, []⟩ := ⟨⟨_, hformat⟩, rfl⟩
  have hlegal₁ : (StoreCall.create (oneChar 97) 128#32).Legal ⟨fs, t, []⟩ :=
    show (128#32).toInt ≤ MaxFileSize by decide
  obtain ⟨a₁, s₁, m₁, hcall₁, hst₁, hs₁⟩ := (Shows.init h₀).call _ hlegal₁
  -- the store is empty, so it has room for the name
  obtain ⟨b, bytes, rfl, hfile₁, hhandles₁⟩ : ∃ b bytes, a₁ = .success true ∧
      m₁.files key = some (b :: bytes) ∧ m₁.handles = [] := by
    cases hst₁ with
    | @created _ _ bytes _ _ hlength =>
      cases bytes with
      | nil => cases hlength
      | cons b bytes =>
        refine ⟨b, bytes, rfl, ?_, rfl⟩
        rw [hkey]
        simp
    | notCreated h =>
      rcases h with h | h
      · exact absurd rfl h
      · simp [FileStore.names, FileStore.empty] at h
  obtain ⟨a₂, s₂, m₂, hcall₂, hst₂, hs₂⟩ := hs₁.call (.openFile (oneChar 97)) trivial
  obtain ⟨rfl, hfile₂, hhandles₂⟩ : a₂ = .success true ∧ m₂.files key = some (b :: bytes) ∧
      m₂.handles = [key] := by
    cases hst₂ with
    | opened => exact ⟨rfl, hfile₁, by rw [hhandles₁, hkey]; rfl⟩
    | notOpened h =>
      rw [hkey, hfile₁] at h
      cases h
  have hnone : s₁.handles = [] := by
    have hhandles := hs₁.handles
    rw [hhandles₁] at hhandles
    exact List.forall₂_nil_right_iff.1 hhandles
  obtain ⟨handle, hopened, hlive⟩ := FsSystem.handles_openFile hcall₂
  rw [hnone, List.nil_append] at hopened
  have hlegal₃ : (StoreCall.writeAt 0 (oneChar 88) 1 0).Legal s₂ :=
    ⟨⟨handle, by rw [hopened]; rfl, hlive⟩, by decide, by decide⟩
  obtain ⟨a₃, s₃, m₃, hcall₃, hst₃, hs₃⟩ := hs₂.call _ hlegal₃
  obtain ⟨rfl, hfile₃, hhandles₃⟩ : a₃ = .count 1 ∧ m₃.files key = some (88 :: bytes) ∧
      m₃.handles = [key] := by
    cases hst₃ with
    | writeAt hk h =>
      rw [hhandles₂] at hk
      cases hk
      rw [hfile₂] at h
      cases h
      refine ⟨rfl, (update_self ..).trans ?_, hhandles₂⟩
      refine congrArg some (List.ext_getElem (by simp [storeAt]) fun k hk hk' => ?_)
      cases k <;> simp [storeAt, oneChar]
  have hlegal₄ : (StoreCall.readAt 0 (fun _ => 0) 1 0).Legal s₃ :=
    ⟨⟨handle, by rw [FsSystem.handles_writeAt hcall₃, hopened]; rfl, hlive⟩, by decide, by decide⟩
  obtain ⟨a₄, s₄, m₄, hcall₄, hst₄, hs₄⟩ := hs₃.call _ hlegal₄
  obtain ⟨rfl, rfl⟩ : a₄ = .bytes [88] ∧ m₄ = m₃ := by
    cases hst₄ with
    | readAt hk h =>
      rw [hhandles₃] at hk
      cases hk
      rw [hfile₃] at h
      cases h
      exact ⟨rfl, rfl⟩
  obtain ⟨a₅, s₅, m₅, hcall₅, hst₅, hs₅⟩ := hs₄.call (.mount fun _ _ => 0) trivial
  obtain ⟨rfl, hfile₅⟩ : a₅ = .done ∧ m₅.files key = some (88 :: bytes) := by
    cases hst₅
    exact ⟨rfl, hfile₃⟩
  obtain ⟨a₆, s₆, m₆, hcall₆, hst₆, hs₆⟩ := hs₅.call (.remove (oneChar 97)) trivial
  obtain rfl : a₆ = .success true := by
    cases hst₆ with
    | removed => rfl
    | notRemoved h =>
      rw [hkey, hfile₅] at h
      cases h
  have hrun : Run CallReturns ⟨fs, t, []⟩ session s₆ :=
    .cons ⟨hlegal₁, hcall₁⟩ (.cons ⟨trivial, hcall₂⟩ (.cons ⟨hlegal₃, hcall₃⟩
      (.cons ⟨hlegal₄, hcall₄⟩ (.cons ⟨trivial, hcall₅⟩ (.cons ⟨trivial, hcall₆⟩ (.nil s₆))))))
  obtain ⟨m, hm, hshows⟩ := (file_system_is_store h₀ hrun).1
  exact ⟨_, s₆, m, h₀, hrun, hm, hshows⟩

end Nachos
