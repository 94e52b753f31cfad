import Nachos.Filesys.Directory

/-!
# `filesys/filesys.cc`

The file system keeps the free map and the directory as two files, whose headers are in sectors 0
and 1.  Every operation fetches them, works on the copies in memory, and writes them back if it
succeeds.

`directoryAt` and `freeMapAt` are the two files as they are on a disk.
-/

namespace Nachos

open ByteMemory (Mem)
open Fallible

/-- `FreeMapSector`. -/
abbrev FreeMapSector : ℕ := 0

/-- `DirectorySector`. -/
abbrev DirectorySector : ℕ := 1

/-- `FreeMapFileSize`. -/
abbrev FreeMapFileSize : ℕ := NumSectors / 8

/-- `NumDirEntries`. -/
abbrev NumDirEntries : ℕ := 10

/-- `DirectoryFileSize`. -/
abbrev DirectoryFileSize : ℕ := EntrySize * NumDirEntries

/-- `class FileSystem`: the two files that are left open. -/
structure FileSystem where
  freeMapFile : OpenFile
  directoryFile : OpenFile

/-- `new BitMap(NumSectors)`. -/
def newFreeMap : Fs (BitMap NumSectors) := do
  let block ← newBlock
  return .new NumSectors fun j => ByteMemory.word block (4 * j)

/-- `new Directory(NumDirEntries)`. -/
def newDirectory : Fs (Directory NumDirEntries) := do
  let block ← newBlock
  return .new block

/-- `new FileHeader`. -/
def newHeader : Fs FileHeader := do
  let block ← newBlock
  return .ofBytes block

/-- `ASSERT(hdr->Allocate(freeMap, fileSize))`. -/
def allocateFixed (hdr : FileHeader) (freeMap : BitMap NumSectors) (fileSize : ℕ) :
    Fs (FileHeader × BitMap NumSectors) := do
  let p ← hdr.allocate freeMap (.ofNat 32 fileSize)
  if p.1 then
    return p.2
  throw .noSpace

namespace FileSystem

/-- The second half of `FileSystem::FileSystem(true)`: the headers are flushed, the files opened,
and their contents flushed. -/
def flushFormat (mapHdr dirHdr : FileHeader) (freeMap : BitMap NumSectors)
    (directory : Directory NumDirEntries) : Fs FileSystem := do
  mapHdr.writeBack FreeMapSector
  dirHdr.writeBack DirectorySector
  let freeMapFile ← OpenFile.new FreeMapSector
  let directoryFile ← OpenFile.new DirectorySector
  freeMap.writeBack freeMapFile
  directory.writeBack directoryFile
  return { freeMapFile := freeMapFile, directoryFile := directoryFile }

/-- `FileSystem::FileSystem(true)`. -/
def format : Fs FileSystem := do
  let freeMap ← newFreeMap
  let directory ← newDirectory
  let mapHdr ← newHeader
  let dirHdr ← newHeader
  let freeMap ← fromKernel (freeMap.mark FreeMapSector)
  let freeMap ← fromKernel (freeMap.mark DirectorySector)
  let map ← allocateFixed mapHdr freeMap FreeMapFileSize
  let dir ← allocateFixed dirHdr map.2 DirectoryFileSize
  flushFormat map.1 dir.1 dir.2 directory

/-- `FileSystem::FileSystem(false)`: the two files are on the disk already. -/
def mount : Fs FileSystem := do
  let freeMapFile ← OpenFile.new FreeMapSector
  let directoryFile ← OpenFile.new DirectorySector
  return { freeMapFile := freeMapFile, directoryFile := directoryFile }

/-- A new directory, fetched from the disk. -/
def fetchDirectory (fs : FileSystem) : Fs (Directory NumDirEntries) := do
  let directory ← newDirectory
  directory.fetchFrom fs.directoryFile

/-- A new bitmap, fetched from the disk. -/
def fetchFreeMap (fs : FileSystem) : Fs (BitMap NumSectors) := do
  let freeMap ← newFreeMap
  freeMap.fetchFrom fs.freeMapFile

/-- The innermost branch of `Create`: the header is allocated, and all is flushed to disk. -/
def createFile (fs : FileSystem) (directory : Directory NumDirEntries)
    (freeMap : BitMap NumSectors) (sector : ℤ) (initialSize : BitVec 32) : Fs Bool := do
  let hdr ← newHeader
  let p ← hdr.allocate freeMap initialSize
  if !p.1 then
    return false                        -- no space on disk for data
  p.2.1.writeBack sector
  directory.writeBack fs.directoryFile
  p.2.2.writeBack fs.freeMapFile
  return true

/-- `FileSystem::Create`. -/
def create (fs : FileSystem) (name : Mem) (initialSize : BitVec 32) : Fs Bool := do
  let directory ← fs.fetchDirectory
  if directory.find name ≠ -1 then
    return false                        -- file is already in directory
  let freeMap ← fs.fetchFreeMap
  let sector := FileHeader.foundInt freeMap.find.1
  if sector = -1 then
    return false                        -- no free block for file header
  let added := directory.add name (.ofInt 32 sector)
  if !added.1 then
    return false                        -- no space in directory
  fs.createFile added.2 freeMap.find.2 sector initialSize

/-- `FileSystem::Open`; `none` is the `NULL` of the source. -/
def openFile (fs : FileSystem) (name : Mem) : Fs (Option OpenFile) := do
  let directory ← fs.fetchDirectory
  let sector := directory.find name
  if sector ≥ 0 then
    let file ← OpenFile.new sector
    return some file
  return none

/-- `FileSystem::Remove`. -/
def remove (fs : FileSystem) (name : Mem) : Fs Bool := do
  let directory ← fs.fetchDirectory
  let sector := directory.find name
  if sector = -1 then
    return false                        -- file not found
  let hdr ← newHeader
  let fileHdr ← hdr.fetchFrom sector
  let freeMap ← fs.fetchFreeMap
  let freeMap ← fileHdr.deallocate freeMap
  let freeMap ← fromKernel (freeMap.clear sector)
  let removed := directory.remove name
  freeMap.writeBack fs.freeMapFile
  removed.2.writeBack fs.directoryFile
  return true

end FileSystem

/-! ### The two files on a disk -/

/-- The directory on a disk. -/
def directoryAt (disk : Mem) : Directory NumDirEntries :=
  ⟨fileByte disk (headerAt disk DirectorySector)⟩

/-- The free map on a disk. -/
def freeMapAt (disk : Mem) : BitMap NumSectors :=
  .ofBytes (fileByte disk (headerAt disk FreeMapSector))

/-- The two files are where their headers say. -/
structure Mounted (fs : FileSystem) (disk : Mem) : Prop where
  map_hdr : fs.freeMapFile.hdr = headerAt disk FreeMapSector
  dir_hdr : fs.directoryFile.hdr = headerAt disk DirectorySector
  map_covers : (headerAt disk FreeMapSector).Covers
  dir_covers : (headerAt disk DirectorySector).Covers
  map_nodup : (headerAt disk FreeMapSector).sectors.Nodup
  dir_nodup : (headerAt disk DirectorySector).sectors.Nodup
  map_length : (headerAt disk FreeMapSector).length = FreeMapFileSize
  dir_length : (headerAt disk DirectorySector).length = DirectoryFileSize

theorem newFreeMap_run (s : FsState) :
    ∃ words heap, newFreeMap s = .ok (.new NumSectors words, { s with heap := heap }) :=
  ⟨_, _, rfl⟩

theorem newDirectory_run (s : FsState) :
    ∃ block heap, newDirectory s = .ok (.new block, { s with heap := heap }) :=
  ⟨_, _, rfl⟩

theorem newHeader_run (s : FsState) :
    ∃ hdr heap, newHeader s = .ok (hdr, { s with heap := heap }) :=
  ⟨_, _, rfl⟩

namespace Mounted

variable {fs : FileSystem} {s : FsState}

theorem mapFile_covers (h : Mounted fs s.disk) : fs.freeMapFile.hdr.Covers := by
  rw [h.map_hdr]
  exact h.map_covers

theorem mapFile_length (h : Mounted fs s.disk) :
    fs.freeMapFile.hdr.length = 4 * divRoundUp NumSectors BitsInWord := by
  rw [h.map_hdr]
  exact h.map_length

theorem dirFile_covers (h : Mounted fs s.disk) : fs.directoryFile.hdr.Covers := by
  rw [h.dir_hdr]
  exact h.dir_covers

theorem dirFile_length (h : Mounted fs s.disk) :
    fs.directoryFile.hdr.length = NumDirEntries * EntrySize := by
  rw [h.dir_hdr]
  exact h.dir_length

theorem mapFile_nodup (h : Mounted fs s.disk) : fs.freeMapFile.hdr.sectors.Nodup := by
  rw [h.map_hdr]
  exact h.map_nodup

theorem dirFile_nodup (h : Mounted fs s.disk) : fs.directoryFile.hdr.sectors.Nodup := by
  rw [h.dir_hdr]
  exact h.dir_nodup

theorem fetchDirectory_run (h : Mounted fs s.disk) :
    ∃ dir heap, fs.fetchDirectory s = .ok (dir, { s with heap := heap }) ∧
      dir.Agree (directoryAt s.disk) := by
  obtain ⟨block, heap, hnew⟩ := newDirectory_run s
  obtain ⟨dir, heap', hfetch, hagree⟩ :=
    Directory.fetchFrom_run (.new block) h.dirFile_covers h.dirFile_length { s with heap := heap }
  refine ⟨dir, heap', ?_, ?_⟩
  · unfold FileSystem.fetchDirectory
    rw [bind_run hnew]
    exact hfetch
  · rw [h.dir_hdr] at hagree
    exact hagree

theorem fetchFreeMap_run (h : Mounted fs s.disk) :
    ∃ freeMap heap, fs.fetchFreeMap s = .ok (freeMap, { s with heap := heap }) ∧
      ∀ i < NumSectors, freeMap.isSet i = (freeMapAt s.disk).isSet i := by
  obtain ⟨words, heap, hnew⟩ := newFreeMap_run s
  obtain ⟨freeMap, heap', hfetch, hbits⟩ := BitMap.fetchFrom_run (.new NumSectors words)
    h.mapFile_covers h.mapFile_length.ge { s with heap := heap }
  refine ⟨freeMap, heap', ?_, ?_⟩
  · unfold FileSystem.fetchFreeMap
    rw [bind_run hnew]
    exact hfetch
  · rw [h.map_hdr] at hbits
    exact hbits

end Mounted

end Nachos
