import Nachos.Machine.BitMap
import Nachos.Lib.ByteMemory
import Nachos.Lib.Effect

/-!
# The disk as the file system sees it

The disk is the UNIX file of `machine/disk.cc`, from its magic number on: one byte after the other,
sector by sector.  `SynchDisk::ReadSector` and `WriteSector` return when the request is done, and
the file system "assumes there is no concurrent access"; so its code is sequential, over a state of
two parts:

* `disk`, the bytes on the disk;
* `heap`, what the blocks of memory that `new` will return happen to contain.

Code that breaks off (an `ASSERT`, an array index out of bounds, an `int` that overflows) ends in a
fault.  A pointer into a block of memory is the block and an offset.
-/

namespace Nachos

open ByteMemory

/-- `SectorSize`. -/
abbrev SectorSize : ℕ := 128

/-- `SectorsPerTrack`. -/
abbrev SectorsPerTrack : ℕ := 32

/-- `NumTracks`. -/
abbrev NumTracks : ℕ := 32

/-- `NumSectors`. -/
abbrev NumSectors : ℕ := SectorsPerTrack * NumTracks

/-- How code of the file system breaks off. -/
inductive FsFault
  | kernel (e : Fault)
  | sectorRange       -- `Disk`: `(sectorNumber >= 0) && (sectorNumber < NumSectors)`
  | oughtToBeMarked   -- `Deallocate`: `freeMap->Test(...)`
  | noSpace           -- `FileSystem`: `Allocate` for the bitmap and the directory
  | overflow          -- the sum of two `int`s is not an `int`
  deriving DecidableEq, Repr

/-- The disk, and what `new` will return. -/
structure FsState where
  disk : Mem
  heap : ℕ → Mem

/-- Code of the file system. -/
abbrev Fs := StateT FsState (Except FsFault)

/-- Code of the rest of the kernel. -/
def fromKernel {α : Type} (x : Except Fault α) : Fs α := fun s =>
  match x with
  | .ok a => .ok (a, s)
  | .error e => .error (.kernel e)

/-- `new`: the next block of memory, with what is in it. -/
def newBlock : Fs Mem := fun s => .ok (s.heap 0, { s with heap := fun k => s.heap (k + 1) })

/-- The bytes of a sector. -/
def sectorAt (disk : Mem) (sectorNumber : ℕ) : Mem := fun k => disk (SectorSize * sectorNumber + k)

/-- `SynchDisk::ReadSector`. -/
def readSector (sectorNumber : ℤ) (data : Mem) (offset : ℕ) : Fs Mem := fun s =>
  if 0 ≤ sectorNumber ∧ sectorNumber < NumSectors then
    .ok (copy (sectorAt s.disk sectorNumber.toNat) SectorSize data offset, s)
  else .error .sectorRange

/-- `SynchDisk::WriteSector`. -/
def writeSector (sectorNumber : ℤ) (data : Mem) (offset : ℕ) : Fs Unit := fun s =>
  if 0 ≤ sectorNumber ∧ sectorNumber < NumSectors then
    .ok ((), { s with
      disk := copy (fun k => data (offset + k)) SectorSize s.disk
        (SectorSize * sectorNumber.toNat) })
  else .error .sectorRange

theorem readSector_run {n : ℕ} (h : n < NumSectors) (data : Mem) (offset : ℕ) (s : FsState) :
    readSector n data offset s =
      .ok (copy (sectorAt s.disk n) SectorSize data offset, s) := by
  unfold readSector
  rw [if_pos ⟨by omega, by exact_mod_cast h⟩, Int.toNat_natCast]

theorem writeSector_run {n : ℕ} (h : n < NumSectors) (data : Mem) (offset : ℕ) (s : FsState) :
    writeSector n data offset s = .ok ((), { s with
      disk := copy (fun k => data (offset + k)) SectorSize s.disk
        (SectorSize * n) }) := by
  unfold writeSector
  rw [if_pos ⟨by omega, by exact_mod_cast h⟩, Int.toNat_natCast]

/-- No sectors change but these. -/
def ChangesOnly (sectors : List ℕ) (d d' : Mem) : Prop :=
  ∀ a, a / SectorSize ∉ sectors → d' a = d a

namespace ChangesOnly

variable {l l' : List ℕ} {d d' d'' : Mem}

theorem refl (l : List ℕ) (d : Mem) : ChangesOnly l d d := fun _ _ => rfl

theorem mono (h : ChangesOnly l d d') (hl : ∀ n ∈ l, n ∈ l') : ChangesOnly l' d d' :=
  fun a ha => h a fun hm => ha (hl _ hm)

theorem trans (h : ChangesOnly l d d') (h' : ChangesOnly l' d' d'') :
    ChangesOnly (l ++ l') d d'' := by
  intro a ha
  rw [List.mem_append, not_or] at ha
  rw [h' a ha.2, h a ha.1]

theorem sectorAt (h : ChangesOnly l d d') {n k : ℕ} (hn : n ∉ l) (hk : k < SectorSize) :
    sectorAt d' n k = Nachos.sectorAt d n k := by
  refine h _ ?_
  rw [show (SectorSize * n + k) / SectorSize = n by unfold SectorSize at *; omega]
  exact hn

end ChangesOnly

end Nachos
