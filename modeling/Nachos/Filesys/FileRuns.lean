import Nachos.Filesys.Operations
import Nachos.Lib.Transition

/-!
# Runs of the file system

A run starts by formatting the disk.  Then files are created, opened, removed and written to, in any
order, and `OpenFile` objects are kept for as long as one likes.

* `LiveStep`: new files have a size that a header can describe, and every `WriteAt` is through an
  open file whose file is still there, from a place in the file or behind it.
* `FsInv`: the sectors are owned, and an open file whose file is still there has the header of that
  file; kept by every such step.
* `sectors_owned`: ownership in every run of such steps, all of which return, and removing a file
  that has just been created restores the free map.
* `negative_position_breaks`: a `WriteAt` before the start of its file writes over the header of the
  directory.
-/

namespace Nachos

open ByteMemory Transition Fallible

/-- An `OpenFile`, with the file for which it was opened: the sector of its header, and whether it
has been removed since. -/
structure FsHandle where
  file : OpenFile
  sector : ℕ
  removed : Bool

/-- The file with its header in this sector is removed. -/
def FsHandle.afterRemove (sector : ℕ) (h : FsHandle) : FsHandle :=
  { h with removed := h.removed || decide (h.sector = sector) }

/-- The file system, the disk, and the open files. -/
structure FsSystem where
  fs : FileSystem
  mem : FsState
  handles : List FsHandle

/-- The sector of the header of the file with this name. -/
def FsSystem.sectorOf (s : FsSystem) (name : Mem) : ℕ := ((directoryAt s.mem.disk).find name).toNat

/-- What is done next. -/
inductive FsEvent
  | create (name : Mem) (initialSize : BitVec 32)
  | openFile (name : Mem)
  | remove (name : Mem)
  | writeAt (k : ℕ) (src : Mem) (numBytes position : BitVec 32)

/-- The operation returns, and this is the state then. -/
inductive FsStep : FsSystem → FsEvent → FsSystem → Prop
  | create {s : FsSystem} {name : Mem} {initialSize : BitVec 32} {r : Bool} {mem : FsState}
      (h : s.fs.create name initialSize s.mem = .ok (r, mem)) :
      FsStep s (.create name initialSize) { s with mem := mem }
  | opened {s : FsSystem} {name : Mem} {file : OpenFile} {mem : FsState}
      (h : s.fs.openFile name s.mem = .ok (some file, mem)) :
      FsStep s (.openFile name)
        { s with mem := mem, handles := s.handles ++ [⟨file, s.sectorOf name, false⟩] }
  | notOpened {s : FsSystem} {name : Mem} {mem : FsState}
      (h : s.fs.openFile name s.mem = .ok (none, mem)) :
      FsStep s (.openFile name) { s with mem := mem }
  | removed {s : FsSystem} {name : Mem} {mem : FsState}
      (h : s.fs.remove name s.mem = .ok (true, mem)) :
      FsStep s (.remove name)
        { s with mem := mem, handles := s.handles.map (.afterRemove (s.sectorOf name)) }
  | notRemoved {s : FsSystem} {name : Mem} {mem : FsState}
      (h : s.fs.remove name s.mem = .ok (false, mem)) :
      FsStep s (.remove name) { s with mem := mem }
  | writeAt {s : FsSystem} {k : ℕ} {src : Mem} {numBytes position : BitVec 32} {handle : FsHandle}
      {r : ℤ} {mem : FsState} (hk : s.handles[k]? = some handle)
      (h : handle.file.writeAt src numBytes.toInt position.toInt s.mem = .ok (r, mem)) :
      FsStep s (.writeAt k src numBytes position) { s with mem := mem }

/-- `FileSystem(true)` has returned, and no file is open. -/
def FsInit (s : FsSystem) : Prop :=
  (∃ mem, FileSystem.format mem = .ok (s.fs, s.mem)) ∧ s.handles = []

/-- The open file `k` is there and its file has not been removed; a transfer starts at a place in it
or behind it, and its end is an `int`. -/
def FsSystem.CanTransfer (s : FsSystem) (k : ℕ) (n p : ℤ) : Prop :=
  (∃ handle, s.handles[k]? = some handle ∧ handle.removed = false) ∧ 0 ≤ p ∧ p + n ≤ INTMAX

/-- A new file has a size that a header can describe, and a `WriteAt` is one that the code is made
for. -/
def FsEvent.Live (s : FsSystem) : FsEvent → Prop
  | .create _ initialSize => initialSize.toInt ≤ MaxFileSize
  | .writeAt k _ numBytes position => s.CanTransfer k numBytes.toInt position.toInt
  | _ => True

/-- The steps of this kind. -/
def LiveStep (s : FsSystem) (e : FsEvent) (s' : FsSystem) : Prop := FsStep s e s' ∧ e.Live s

/-- The invariant of a run. -/
structure FsInv (s : FsSystem) : Prop where
  owned : Owned s.mem.disk
  mounted : Mounted s.fs s.mem.disk
  handles : ∀ h ∈ s.handles, h.removed = false →
    ∃ i ∈ entriesInUse s.mem.disk, entrySector s.mem.disk i = h.sector ∧
      h.file.hdr = headerAt s.mem.disk h.sector

variable {s s' : FsSystem}

theorem Owned.sectorOf_eq (h : Owned s.mem.disk) {name : Mem} {i : ℕ}
    (hf : (directoryAt s.mem.disk).findIndex name = some i) :
    s.sectorOf name = entrySector s.mem.disk i := by
  unfold FsSystem.sectorOf
  rw [h.find_some (fun _ _ => rfl) hf, Int.toNat_natCast]

/-- A size up to `MaxFileSize` fits into a header. -/
theorem sectorsFor_le {size : BitVec 32} (h : size.toInt ≤ MaxFileSize) :
    sectorsFor size ≤ NumDirect := by
  have hsize : size.toInt.toNat ≤ 3840 := by
    unfold MaxFileSize NumDirect SectorSize at h
    omega
  unfold sectorsFor divRoundUp SectorSize NumDirect
  split_ifs <;> omega

/-! ### Every step keeps the invariant -/

namespace FsInv

theorem init (h : FsInit s) : FsInv s := by
  obtain ⟨⟨mem, hformat⟩, hnone⟩ := h
  obtain ⟨fs, t, hrun, howned, hmounted, -, -⟩ := format_run mem
  rw [hrun] at hformat
  cases hformat
  exact ⟨howned, hmounted, fun h hm => by rw [hnone] at hm; cases hm⟩

variable {mem : FsState} {handle : FsHandle} {numBytes position : ℤ}

/-- Nothing changes but the heap. -/
theorem sameDisk (h : FsInv s) (hmem : mem.disk = s.mem.disk) : FsInv { s with mem := mem } := by
  obtain ⟨howned, hmounted, hhandles⟩ := h
  refine ⟨?_, ?_, ?_⟩
  · exact hmem ▸ howned
  · exact hmem ▸ hmounted
  · exact hmem ▸ hhandles

theorem create (h : FsInv s) {name : Mem} {size : BitVec 32} (hsize : size.toInt ≤ MaxFileSize)
    {r : Bool} (hrun : s.fs.create name size s.mem = .ok (r, mem)) :
    FsInv { s with mem := mem } := by
  rcases h.owned.create_ok h.mounted (sectorsFor_le hsize) hrun with ⟨-, hmem⟩ | ⟨-, i, n, hc⟩
  · exact h.sameDisk hmem
  have howned := h.owned.created hc
  refine ⟨howned, howned.mounted ?_ ?_, fun handle hmem hlive => ?_⟩
  · exact h.mounted.map_hdr.trans (hc.headerAt_eq h.owned freeMapSector_mem).symm
  · exact h.mounted.dir_hdr.trans (hc.headerAt_eq h.owned directorySector_mem).symm
  · obtain ⟨j, hj, hsector, hhdr⟩ := h.handles handle hmem hlive
    have hji : j ≠ i := by
      rintro rfl
      exact hc.not_inUse hj
    refine ⟨j, hc.entriesInUse_perm.mem_iff.2 (List.mem_cons_of_mem _ hj), ?_, ?_⟩
    · rw [hc.entrySector_eq h.owned (mem_entriesInUse.1 hj).1, if_neg hji, hsector]
    · rw [hhdr, ← hsector, hc.headerAt_eq h.owned (entrySector_mem hj)]

theorem openFile (h : FsInv s) {name : Mem} {file : OpenFile}
    (hrun : s.fs.openFile name s.mem = .ok (some file, mem)) :
    FsInv { s with mem := mem, handles := s.handles ++ [⟨file, s.sectorOf name, false⟩] } := by
  obtain ⟨heap, hrun'⟩ := h.owned.openFile_run h.mounted name
  rw [hrun'] at hrun
  cases hf : (directoryAt s.mem.disk).findIndex name with
  | none =>
    rw [hf] at hrun
    cases hrun
  | some i =>
    rw [hf] at hrun
    cases hrun
    refine ⟨h.owned, h.mounted, fun handle hmem hlive => ?_⟩
    rcases List.mem_append.1 hmem with hmem | hmem
    · exact h.handles handle hmem hlive
    · rw [List.mem_singleton.1 hmem]
      have hsector := h.owned.sectorOf_eq hf
      exact ⟨i, mem_entriesInUse.2 (Directory.findIndex_some hf), hsector.symm,
        congrArg (headerAt s.mem.disk) hsector.symm⟩

theorem remove (h : FsInv s) {name : Mem} (hrun : s.fs.remove name s.mem = .ok (true, mem)) :
    FsInv { s with mem := mem, handles := s.handles.map (.afterRemove (s.sectorOf name)) } := by
  rcases h.owned.remove_run h.mounted name with ⟨heap, hrun', -⟩ | ⟨i, d, heap, hrun', hf, hr⟩
  · rw [hrun'] at hrun
    cases hrun
  rw [hrun'] at hrun
  cases hrun
  have howned := h.owned.removed hr
  refine ⟨howned, howned.mounted ?_ ?_, fun handle hmem hlive => ?_⟩
  · exact h.mounted.map_hdr.trans (hr.headerAt_eq h.owned freeMapSector_mem).symm
  · exact h.mounted.dir_hdr.trans (hr.headerAt_eq h.owned directorySector_mem).symm
  · obtain ⟨old, hold, rfl⟩ := List.mem_map.1 hmem
    unfold FsHandle.afterRemove at hlive
    rw [Bool.or_eq_false_iff, decide_eq_false_iff_not, h.owned.sectorOf_eq hf] at hlive
    obtain ⟨j, hj, hsector, hhdr⟩ := h.handles old hold hlive.1
    -- the entry of an open file that stays is another one
    have hji : j ≠ i := by
      rintro rfl
      exact hlive.2 hsector.symm
    refine ⟨j, hr.mem_entriesInUse_iff.2 ⟨hj, hji⟩, ?_, ?_⟩
    · rw [hr.entrySector_eq (mem_entriesInUse.1 hj).1]
      exact hsector
    · exact hhdr.trans (hr.headerAt_eq h.owned (hsector ▸ entrySector_mem hj)).symm

/-- A `WriteAt` through a live open file returns and writes to the data sectors of the file. -/
theorem exists_written (h : FsInv s) (hmem : handle ∈ s.handles) (hlive : handle.removed = false)
    (src : Mem) (hpos : 0 ≤ position) (hend : position + numBytes ≤ INTMAX) :
    ∃ r d heap, handle.file.writeAt src numBytes position s.mem = .ok (r, ⟨d, heap⟩) ∧
      ChangesOnly (headerAt s.mem.disk handle.sector).sectors s.mem.disk d := by
  obtain ⟨i, hi, hsector, hhdr⟩ := h.handles handle hmem hlive
  have hmem' := hsector ▸ entrySector_mem hi
  rw [← hhdr]
  exact OpenFile.writeAt_frame (hhdr ▸ h.owned.covers hmem') (hhdr ▸ h.owned.data_nodup hmem') src
    hpos hend s.mem

/-- What a `WriteAt` through a live open file leaves as it is. -/
theorem write_frame (h : FsInv s) (hmem : handle ∈ s.handles) (hlive : handle.removed = false)
    {src : Mem} {r : ℤ} (hpos : 0 ≤ position) (hend : position + numBytes ≤ INTMAX)
    (hrun : handle.file.writeAt src numBytes position s.mem = .ok (r, mem)) :
    ChangesOnly (headerAt s.mem.disk handle.sector).sectors s.mem.disk mem.disk ∧
      Owned mem.disk ∧ (directoryAt mem.disk).Agree (directoryAt s.mem.disk) ∧
      (∀ m < NumSectors, (freeMapAt mem.disk).isSet m = (freeMapAt s.mem.disk).isSet m) ∧
      ∀ m ∈ headerSectors s.mem.disk, headerAt mem.disk m = headerAt s.mem.disk m := by
  obtain ⟨r', d, heap, hrun', hch⟩ := h.exists_written hmem hlive src hpos hend
  rw [hrun'] at hrun
  cases hrun
  obtain ⟨i, hi, hsector, -⟩ := h.handles handle hmem hlive
  obtain ⟨hhdrs, hmeta⟩ := h.owned.file_apart hi
  rw [hsector] at hhdrs hmeta
  exact ⟨hch, h.owned.written hch hhdrs hmeta⟩

theorem writeAt (h : FsInv s) (hmem : handle ∈ s.handles) (hlive : handle.removed = false)
    {src : Mem} {r : ℤ} (hpos : 0 ≤ position) (hend : position + numBytes ≤ INTMAX)
    (hrun : handle.file.writeAt src numBytes position s.mem = .ok (r, mem)) :
    FsInv { s with mem := mem } := by
  obtain ⟨-, howned, hdir, -, hheader⟩ := h.write_frame hmem hlive hpos hend hrun
  refine ⟨howned, howned.mounted ?_ ?_, fun old hold hlive' => ?_⟩
  · exact h.mounted.map_hdr.trans (hheader _ freeMapSector_mem).symm
  · exact h.mounted.dir_hdr.trans (hheader _ directorySector_mem).symm
  · obtain ⟨j, hj, hsector, hhdr⟩ := h.handles old hold hlive'
    refine ⟨j, (entriesInUse_congr hdir).symm ▸ hj, ?_, ?_⟩
    · rw [← hsector, entrySector, entrySector, hdir.sector (mem_entriesInUse.1 hj).1]
    · refine hhdr.trans ?_
      rw [← hsector]
      exact (hheader _ (entrySector_mem hj)).symm

theorem step (h : FsInv s) {e : FsEvent} (hst : LiveStep s e s') : FsInv s' := by
  obtain ⟨hst, hlive⟩ := hst
  cases hst with
  | create hrun => exact h.create hlive hrun
  | opened hrun => exact h.openFile hrun
  | @notOpened name mem hrun =>
    obtain ⟨heap, hrun'⟩ := h.owned.openFile_run h.mounted name
    rw [hrun'] at hrun
    obtain ⟨-, rfl⟩ := Prod.mk.inj (Except.ok.inj hrun)
    exact h.sameDisk rfl
  | removed hrun => exact h.remove hrun
  | @notRemoved name mem hrun =>
    rcases h.owned.remove_run h.mounted name with ⟨heap, hrun', -⟩ | ⟨i, d, heap, hrun', -⟩
    · rw [hrun'] at hrun
      cases hrun
      exact h.sameDisk rfl
    · rw [hrun'] at hrun
      cases hrun
  | writeAt hk hrun =>
    obtain ⟨⟨handle, hk', hlive⟩, hpos, hend⟩ := hlive
    rw [hk'] at hk
    cases hk
    exact h.writeAt (List.mem_of_getElem? hk') hlive hpos hend hrun

/-- A call of this kind returns. -/
theorem returns (h : FsInv s) : ∀ e : FsEvent, e.Live s → ∃ s', FsStep s e s'
  | .create name size, hlive => by
    rcases h.owned.create_run h.mounted name (sectorsFor_le hlive) with
      ⟨heap, hrun, -⟩ | ⟨i, n, d, heap, hrun, -⟩
    · exact ⟨_, .create hrun⟩
    · exact ⟨_, .create hrun⟩
  | .openFile name, _ => by
    obtain ⟨heap, hrun⟩ := h.owned.openFile_run h.mounted name
    cases hf : (directoryAt s.mem.disk).findIndex name with
    | none =>
      rw [hf] at hrun
      exact ⟨_, .notOpened hrun⟩
    | some i =>
      rw [hf] at hrun
      exact ⟨_, .opened hrun⟩
  | .remove name, _ => by
    rcases h.owned.remove_run h.mounted name with ⟨heap, hrun, -⟩ | ⟨i, d, heap, hrun, -⟩
    · exact ⟨_, .notRemoved hrun⟩
    · exact ⟨_, .removed hrun⟩
  | .writeAt _ src _ _, ⟨⟨_, hk, hlive⟩, hpos, hend⟩ => by
    obtain ⟨r, d, heap, hrun, -⟩ :=
      h.exists_written (List.mem_of_getElem? hk) hlive src hpos hend
    exact ⟨_, .writeAt hk hrun⟩

theorem reach (h : Reach FsInit LiveStep s) : FsInv s :=
  h.invariant (fun _ => init) fun _ _ _ hinv hst => hinv.step hst

end FsInv

/-! ### A file that is created and removed -/

section created

variable {d d' d'' : Mem} {name : Mem} {size : BitVec 32} {i n : ℕ}

/-- The new file is found under its name. -/
theorem Created.findIndex_eq (hc : Created d name size i n d') :
    (directoryAt d').findIndex name = some i := by
  rw [hc.dir.findIndex]
  exact Directory.findIndex_enter hc.notFound hc.entry_lt _

/-- The sectors of a file that has been created and removed have no owner again. -/
theorem Created.removed_owned (hc : Created d name size i n d') (hr : Removed d' i d'')
    (h : Owned d) : (owned d'').Perm (owned d) := by
  have hperm := (hr.owned_perm (h.created hc)).symm.trans (hc.owned_perm h)
  rw [hc.entrySector_new h] at hperm
  exact (List.perm_append_left_iff _).1 hperm

theorem Created.removed_bits (hc : Created d name size i n d') (hr : Removed d' i d'')
    (h : Owned d) {m : ℕ} (hm : m < NumSectors) :
    (freeMapAt d'').isSet m = (freeMapAt d).isSet m := by
  rw [Bool.eq_iff_iff, ((h.created hc).removed hr).marked m hm, h.marked m hm]
  exact (hc.removed_owned hr h).mem_iff

/-- The new file was the only one. -/
theorem Created.removed_none (hc : Created d name size i n d') (hr : Removed d' i d'')
    (hnone : entriesInUse d = []) : entriesInUse d'' = [] := by
  refine List.eq_nil_iff_forall_not_mem.2 fun j hj => ?_
  obtain ⟨hj, hji⟩ := hr.mem_entriesInUse_iff.1 hj
  have hmem := hc.entriesInUse_perm.mem_iff.1 hj
  rw [hnone, List.mem_singleton] at hmem
  exact hji hmem

end created

/-! ### A new disk has room -/

theorem creatable_of_empty {d : Mem} (hnone : entriesInUse d = []) (name : Mem) {size : BitVec 32}
    (hroom : sectorsFor size < (freeMapAt d).clearBits.length) : Creatable d name size := by
  have hfree : ∀ i < NumDirEntries, (directoryAt d).inUse i = false := by
    intro i hi
    by_contra hu
    have hmem := mem_entriesInUse.2 ⟨hi, Bool.not_eq_false _ ▸ hu⟩
    rw [hnone] at hmem
    cases hmem
  refine ⟨?_, ?_, hroom⟩
  · refine List.find?_eq_none.2 fun i hi => ?_
    unfold Directory.isEntry
    rw [hfree i (List.mem_range.1 hi)]
    simp
  · intro hn
    have := List.find?_eq_none.1 hn 0 (List.mem_range.2 (by decide))
    rw [hfree 0 (by decide)] at this
    exact this rfl

/-- A disk that has just been formatted has room for a file. -/
theorem creatable_of_format {d : Mem} (hnone : entriesInUse d = [])
    (hclear : (freeMapAt d).clearBits.map Fin.val = List.range' 5 1019) (name : Mem)
    {size : BitVec 32} (hsize : sectorsFor size < 1019) : Creatable d name size := by
  refine creatable_of_empty hnone name ?_
  rw [← List.length_map (f := Fin.val), hclear, List.length_range']
  exact hsize

/-! ### A file is created and opened -/

/-- The C string with one character. -/
def oneChar (c : Byte) : Mem := fun k => if k = 0 then c else 0

/-- `Open` of a file that is there. -/
theorem FsInv.exists_opened (h : FsInv s) {name : Mem} {i : ℕ}
    (hf : (directoryAt s.mem.disk).findIndex name = some i) :
    ∃ heap, LiveStep s (.openFile name) { s with
      mem := ⟨s.mem.disk, heap⟩
      handles := s.handles ++ [⟨⟨headerAt s.mem.disk (entrySector s.mem.disk i), 0⟩,
        entrySector s.mem.disk i, false⟩] } := by
  obtain ⟨heap, hopen⟩ := h.owned.openFile_run h.mounted name
  rw [hf] at hopen
  refine ⟨heap, ?_, trivial⟩
  rw [← h.owned.sectorOf_eq hf]
  exact FsStep.opened (h.owned.sectorOf_eq hf ▸ hopen)

/-- `Create` on a disk without files. -/
theorem FsInv.exists_created (h : FsInv s) (hnone : entriesInUse s.mem.disk = [])
    (hclear : (freeMapAt s.mem.disk).clearBits.map Fin.val = List.range' 5 1019) (name : Mem) :
    ∃ i n d heap, Created s.mem.disk name 128#32 i n d ∧
      LiveStep s (.create name 128#32) { s with mem := ⟨d, heap⟩ } := by
  rcases h.owned.create_run h.mounted name (show sectorsFor 128#32 ≤ NumDirect by decide) with
    ⟨heap, -, hno⟩ | ⟨i, n, d, heap, hrun, hc, -⟩
  · exact absurd (creatable_of_format hnone hclear name (by decide)) hno
  · exact ⟨i, n, d, heap, hc, FsStep.create hrun, show (128#32).toInt ≤ MaxFileSize by decide⟩

/-- The disk is formatted, and the file `a` of one sector is created and opened. -/
theorem exists_open :
    ∃ (fs : FileSystem) (d d' : Mem) (heap : ℕ → Mem) (i n : ℕ), Owned d ∧ entriesInUse d = [] ∧
      (freeMapAt d).clearBits.map Fin.val = List.range' 5 1019 ∧
      Created d (oneChar 97) 128#32 i n d' ∧
      Reach FsInit LiveStep ⟨fs, ⟨d', heap⟩, [⟨⟨headerAt d' n, 0⟩, n, false⟩]⟩ := by
  obtain ⟨fs, t, hformat, -, -, hnone, hclear⟩ := format_run ⟨fun _ => 0, fun _ _ => 0⟩
  have hreach₀ : Reach FsInit LiveStep ⟨fs, t, []⟩ := .init ⟨⟨_, hformat⟩, rfl⟩
  have hinv₀ := FsInv.reach hreach₀
  obtain ⟨i, n, d₁, heap₁, hc, hst₁⟩ := hinv₀.exists_created hnone hclear (oneChar 97)
  have hreach₁ : Reach FsInit LiveStep ⟨fs, ⟨d₁, heap₁⟩, []⟩ := .step _ hreach₀ hst₁
  obtain ⟨heap₂, hst₂⟩ := (FsInv.reach hreach₁).exists_opened hc.findIndex_eq
  have hnew : entrySector d₁ i = n := hc.entrySector_new hinv₀.owned
  exact ⟨fs, t.disk, d₁, heap₂, i, n, hinv₀.owned, hnone, hclear, hc,
    hnew ▸ .step _ hreach₁ hst₂⟩

/-- **No sector has two owners.**  After every operation of every run of such calls: the sectors of
headers, of files, of the free map and of the directory are different from each other and on the
disk; every header has as many data sectors as its length needs; and the free map on the disk marks
exactly the sectors that have an owner.  So every further call of this kind returns, `Remove` among
them, and after `Create` and `Remove` of a new file the free map is as it was. -/
theorem sectors_owned (h : Reach FsInit LiveStep s) :
    (owned s.mem.disk).Nodup ∧ (∀ n ∈ owned s.mem.disk, n < NumSectors) ∧
      (∀ n ∈ headerSectors s.mem.disk, (headerAt s.mem.disk n).sectors.length =
        divRoundUp (headerAt s.mem.disk n).numBytes.toInt.toNat SectorSize) ∧
      (∀ n < NumSectors, (freeMapAt s.mem.disk).isSet n = true ↔ n ∈ owned s.mem.disk) ∧
      (∀ e : FsEvent, e.Live s → ∃ s', FsStep s e s') ∧
      ∀ (name : Mem) (size : BitVec 32) (mem : FsState), size.toInt ≤ MaxFileSize →
        s.fs.create name size s.mem = .ok (true, mem) →
        ∃ mem', s.fs.remove name mem = .ok (true, mem') ∧
          ∀ n < NumSectors, (freeMapAt mem'.disk).isSet n = (freeMapAt s.mem.disk).isSet n := by
  have hinv := FsInv.reach h
  refine ⟨hinv.owned.nodup, hinv.owned.range, fun n hn => ?_, hinv.owned.marked, hinv.returns,
    fun name size mem hsize hrun => ?_⟩
  · rw [FileHeader.length_sectors]
    exact (hinv.owned.wellFormed n hn).count_eq
  · rcases hinv.owned.create_ok hinv.mounted (sectorsFor_le hsize) hrun with
      ⟨hr, -⟩ | ⟨-, i, n, hc⟩
    · cases hr
    have hinv' := hinv.create hsize hrun
    rcases hinv'.owned.remove_run hinv'.mounted name with
      ⟨heap, -, hnone⟩ | ⟨j, d, heap, hremove, hj, hr⟩
    · rw [hc.findIndex_eq] at hnone
      cases hnone
    · rw [hc.findIndex_eq] at hj
      cases hj
      exact ⟨_, hremove, fun n hn => hc.removed_bits hr hinv.owned hn⟩

/-- The disk is formatted, the file `a` of 128 bytes is created and opened, and a byte is written to
it. -/
theorem sectors_owned_written :
    ∃ s, Reach FsInit LiveStep s ∧ entriesInUse s.mem.disk ≠ [] ∧ s.handles ≠ [] ∧
      (owned s.mem.disk).Nodup := by
  obtain ⟨fs, d, d', heap, i, n, -, -, -, hc, hreach⟩ := exists_open
  have hlive : (FsEvent.writeAt 0 (oneChar 88) 1 0).Live
      ⟨fs, ⟨d', heap⟩, [⟨⟨headerAt d' n, 0⟩, n, false⟩]⟩ := ⟨⟨_, rfl, rfl⟩, by decide, by decide⟩
  obtain ⟨s', hst⟩ := (FsInv.reach hreach).returns _ hlive
  have hreach' := hreach.step _ ⟨hst, hlive⟩
  cases hst with
  | writeAt hk hrun =>
    cases hk
    obtain ⟨-, -, hdir, -⟩ := (FsInv.reach hreach).write_frame List.mem_cons_self rfl
      (by decide) (by decide) hrun
    refine ⟨_, hreach', fun hempty => ?_, List.cons_ne_nil _ _, (sectors_owned hreach').1⟩
    have hi := hc.entriesInUse_perm.mem_iff.2 List.mem_cons_self
    rw [← entriesInUse_congr hdir] at hi
    rw [hempty] at hi
    cases hi

/-! ### A `WriteAt` before the start of the file -/

/-- A positive `int` is its pattern. -/
theorem eq_ofNat_of_toInt {x : BitVec 32} {n : ℕ} (hn : 0 < n) (h : x.toInt.toNat = n) :
    x = BitVec.ofNat 32 n := by
  rw [BitVec.toInt_eq_toNat_cond] at h
  split_ifs at h
  · rw [← h]
    simp
  · omega

/-- A file of one sector, which is full. -/
structure FileHeader.OneFull (hdr : FileHeader) : Prop where
  covers : hdr.Covers
  numSectors : hdr.numSectors = 1
  numBytes : hdr.numBytes = 128

namespace FileHeader.OneFull

variable {file : OpenFile} {s : FsState}

theorem count_pos {hdr : FileHeader} (h : hdr.OneFull) : 0 < hdr.count := by
  rw [count, h.numSectors]
  decide

/-- The word before `dataSectors` is the number of data sectors. -/
theorem byteToSector_before {hdr : FileHeader} (h : hdr.OneFull) :
    hdr.byteToSector (-128) s = .ok ((1 : ℕ), s) := by
  rw [show hdr.byteToSector (-128) s = .ok (hdr.numSectors.toInt, s) from rfl, h.numSectors]
  rfl

/-- The two turns of the loop of `ReadAt`. -/
theorem readTurns_before (h : file.hdr.OneFull) (buf : Mem) :
    ∃ buf', (List.range 2).foldlM (file.readTurn (-1)) buf s = .ok (buf', s) ∧
      ∀ k < SectorSize, buf' k = sectorAt s.disk 1 k := by
  have hturn₀ : file.readTurn (-1) buf 0 s =
      .ok (copy (sectorAt s.disk 1) SectorSize buf 0, s) :=
    (bind_run h.byteToSector_before).trans (readSector_run (by decide) _ _ _)
  have hturn₁ : ∀ buf, file.readTurn (-1) buf 1 s =
      .ok (copy (sectorAt s.disk (file.hdr.sector 0)) SectorSize buf SectorSize, s) :=
    fun buf => (bind_run (h.covers.entry_run h.count_pos s)).trans
      (readSector_run (h.covers.sector_lt 0 h.count_pos) _ _ _)
  refine ⟨copy (sectorAt s.disk (file.hdr.sector 0)) SectorSize
    (copy (sectorAt s.disk 1) SectorSize buf 0) SectorSize, ?_, fun k hk => ?_⟩
  · rw [show List.range 2 = [0, 1] from rfl, List.foldlM_cons, bind_run hturn₀, List.foldlM_cons,
      bind_run (hturn₁ _)]
    rfl
  · rw [copy_of_not_mem (Or.inl hk), copy_of_mem (by omega) (by omega),
      Nat.sub_zero]

theorem readAt_before (h : file.hdr.OneFull) (into : Mem) :
    ∃ into' heap, file.readAt into 0 128 (-128) s = .ok ((128, into'), { s with heap := heap }) ∧
      ∀ k < SectorSize, into' k = sectorAt s.disk 1 k := by
  have hclip : file.clip 128 (-128) s = .ok (128, s) := by
    unfold OpenFile.clip fileLength
    rw [h.numBytes]
    rfl
  obtain ⟨buf, hloop, hbuf⟩ := h.readTurns_before (s := { s with heap := fun k => s.heap (k + 1) })
    (s.heap 0)
  refine ⟨copy (fun k => buf (0 + k)) 128 into 0, fun k => s.heap (k + 1), ?_,
    fun k hk => ?_⟩
  · unfold OpenFile.readAt
    rw [if_neg (by rw [fileLength, h.numBytes]; decide), bind_run hclip,
      bind_run (show newBlock s = .ok _ from rfl)]
    rw [show intDivRoundDown (-128) SectorSize = -1 from rfl,
      show (1 + intDivRoundDown (-128 + 128 - 1) SectorSize - -1).toNat = 2 from rfl,
      bind_run hloop]
    rfl
  · rw [copy_of_mem (by omega) (by omega), Nat.sub_zero, Nat.zero_add, hbuf k hk]

/-- `WriteAt` at -128 writes to the sector whose number is that of the data sectors. -/
theorem writeAt_before (h : file.hdr.OneFull) (src : Mem) :
    ∃ d heap, file.writeAt src 1 (-128) s = .ok (1, ⟨d, heap⟩) ∧
      ∀ k < SectorSize, sectorAt d 1 k = if k = 0 then src 0 else sectorAt s.disk 1 k := by
  have hclip : file.clip 1 (-128) s = .ok (1, s) := by
    unfold OpenFile.clip fileLength
    rw [h.numBytes]
    rfl
  obtain ⟨buf, heap, hread, hbuf⟩ :=
    h.readAt_before (s := { s with heap := fun k => s.heap (k + 1) }) (s.heap 0)
  have hedges : file.readEdges (s.heap 0) 1 (-128) (-1) (-1)
      { s with heap := fun k => s.heap (k + 1) } = .ok (buf, { s with heap := heap }) := by
    unfold OpenFile.readEdges OpenFile.readEdge
    rw [if_neg (by decide), pure_bind, if_pos (by decide)]
    exact bind_run hread
  refine ⟨copy (fun k => copy src 1 buf 0 (0 + k)) SectorSize s.disk
    (SectorSize * 1), heap, ?_, fun k hk => ?_⟩
  · unfold OpenFile.writeAt
    rw [if_neg (by rw [fileLength, h.numBytes]; decide), bind_run hclip,
      bind_run (show newBlock s = .ok _ from rfl)]
    rw [show intDivRoundDown (-128 + 1 - 1) SectorSize = -1 from rfl,
      show intDivRoundDown (-128) SectorSize = -1 from rfl, bind_run hedges,
      bind_run (show inBounds _ 1 _ { s with heap := heap } = .ok ((), _) from rfl)]
    have hturn : file.writeTurn (-1) (copy src 1 buf 0) () 0 { s with heap := heap } =
        .ok ((), ⟨_, heap⟩) :=
      (bind_run h.byteToSector_before).trans (writeSector_run (n := 1) (by decide) _ _ _)
    rw [show (1 + -1 - -1 : ℤ).toNat = 1 from rfl, List.range_one, List.foldlM_cons]
    rw [show (-128 - -1 * (SectorSize : ℤ)).toNat = 0 from rfl, show (1 : ℤ).toNat = 1 from rfl,
      bind_assoc, bind_run hturn]
    rfl
  · unfold sectorAt
    rw [copy_of_mem (by omega) (by omega), Nat.zero_add, Nat.add_sub_cancel_left]
    by_cases h0 : k = 0
    · rw [if_pos h0, h0, copy_of_mem (by omega) (by omega)]
    · rw [if_neg h0, copy_of_not_mem (by omega), hbuf k hk]
      rfl

end FileHeader.OneFull

/-- **A `WriteAt` before the start of a file can write over the header of the directory.**  The
index of `dataSectors` is then -1, which is `numSectors`: with one data sector, the number of the
sector with that header.  After `WriteAt("X", 1, -128)` the directory has 88 bytes in its two
sectors. -/
theorem negative_position_breaks :
    ∃ s s' : FsSystem, Reach FsInit LiveStep s ∧
      (∃ handle, s.handles[0]? = some handle ∧ handle.removed = false) ∧
      FsStep s (.writeAt 0 (oneChar 88) 1 (-128)) s' ∧ DirectorySector ∈ headerSectors s'.mem.disk ∧
      (headerAt s'.mem.disk DirectorySector).sectors.length ≠
        divRoundUp (headerAt s'.mem.disk DirectorySector).numBytes.toInt.toNat SectorSize := by
  obtain ⟨fs, d, d', heap, i, n, howned, -, -, hc, hreach⟩ := exists_open
  have hinv := FsInv.reach hreach
  have hn : n ∈ headerSectors d' := hc.entrySector_new howned ▸
    entrySector_mem (hc.entriesInUse_perm.mem_iff.2 List.mem_cons_self)
  have hfull : (⟨headerAt d' n, 0⟩ : OpenFile).hdr.OneFull := by
    refine ⟨hinv.owned.covers hn, ?_, hc.numBytes⟩
    have hcount := (hinv.owned.wellFormed n hn).count_eq
    rw [show (headerAt d' n).length = 128 by rw [FileHeader.length, hc.numBytes]; decide] at hcount
    exact eq_ofNat_of_toInt (n := 1) (by decide) hcount
  obtain ⟨d'', heap'', hrun, hbytes⟩ := hfull.writeAt_before (s := ⟨d', heap⟩)
    (oneChar 88)
  refine ⟨_, _, hreach, ⟨_, rfl, rfl⟩, FsStep.writeAt rfl hrun, directorySector_mem, ?_⟩
  have hsame : ∀ k, 1 ≤ k → k < SectorSize → sectorAt d'' 1 k = sectorAt d' 1 k :=
    fun k h1 hk => (hbytes k hk).trans (if_neg (by omega))
  have hold : (headerAt d' DirectorySector).numBytes = 200 :=
    eq_ofNat_of_toInt (by decide) hinv.owned.dir_length
  have hcount : (headerAt d'' DirectorySector).count = 2 := by
    have hword : (headerAt d'' DirectorySector).numSectors =
        (headerAt d' DirectorySector).numSectors :=
      word_congr fun k hk => hsame _ (by omega) (by unfold SectorSize; omega)
    rw [FileHeader.count, hword]
    have hwell := (hinv.owned.wellFormed _ directorySector_mem).count_eq
    rwa [hinv.owned.dir_length] at hwell
  have hlength : (headerAt d'' DirectorySector).numBytes = 88 := by
    have hword : (headerAt d'' DirectorySector).numBytes =
        (headerAt d' DirectorySector).numBytes.extractLsb' 8 24 ++ sectorAt d'' 1 0 :=
      word_low fun k h1 hk => hsame _ (by omega) (by unfold SectorSize; omega)
    rw [hword, hold, hbytes 0 (by decide), if_pos rfl]
    decide
  rw [FileHeader.length_sectors]
  show (headerAt d'' DirectorySector).count ≠
    divRoundUp (headerAt d'' DirectorySector).numBytes.toInt.toNat SectorSize
  rw [hcount, hlength]
  decide

end Nachos
