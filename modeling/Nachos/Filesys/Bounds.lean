import Nachos.Filesys.Contents
import Nachos.Filesys.Operations

/-!
# Sizes and transfers within bounds

A file has at most `NumDirect` data sectors, and nothing compares its size with that: `Allocate`
goes on past the end of `dataSectors` if there are enough free sectors.  `ReadAt` and `WriteAt` cut
off a request at the end of the file, by a comparison with `position + numBytes`, which may
overflow.

* `AllocatesInside`, `ReadsInside`, `WritesInside`: the operation returns, and stays in bounds.
* `readAt_congr`, `writeAt_congr`: only the data sectors of the file are used; the rest of
  `dataSectors` does not matter.
* `bounds_kept_iff`: the sizes for which all of this is so.
-/

namespace Nachos

open ByteMemory (Mem)
open Fallible

/-- Another header of the same file: `dataSectors` may differ from entry `numSectors` on. -/
structure FileHeader.SameFile (hdr hdr' : FileHeader) : Prop where
  numBytes : hdr'.numBytes = hdr.numBytes
  numSectors : hdr'.numSectors = hdr.numSectors
  sectors : hdr'.sectors = hdr.sectors

namespace FileHeader.SameFile

variable {hdr hdr' : FileHeader}

theorem count (h : hdr.SameFile hdr') : hdr'.count = hdr.count := by
  unfold FileHeader.count
  rw [h.numSectors]

theorem fileLength (h : hdr.SameFile hdr') : hdr'.fileLength = hdr.fileLength := by
  unfold FileHeader.fileLength
  rw [h.numBytes]

theorem length (h : hdr.SameFile hdr') : hdr'.length = hdr.length := by
  rw [← fileLength_toNat, ← fileLength_toNat, h.fileLength]

theorem sector (h : hdr.SameFile hdr') {i : ℕ} (hi : i < hdr.count) :
    hdr'.sector i = hdr.sector i :=
  sector_congr h.sectors (h.count ▸ hi)

theorem covers (h : hdr.SameFile hdr') (hc : hdr.Covers) : hdr'.Covers where
  count_le := h.count ▸ hc.count_le
  sector_lt i hi := by
    have hi' : i < hdr.count := h.count ▸ hi
    rw [h.sector hi']
    exact hc.sector_lt i hi'
  length_le := by
    rw [h.length, h.count]
    exact hc.length_le

end FileHeader.SameFile

namespace OpenFile

variable {file : OpenFile}

/-- Code that works on an open file uses only the data sectors of the file. -/
def UsesOwnSectors {α : Type} (file : OpenFile) (code : OpenFile → Fs α) : Prop :=
  ∀ hdr', file.hdr.SameFile hdr' → ∀ s, code { file with hdr := hdr' } s = code file s

section Congr

variable {hdr' : FileHeader} (h : file.hdr.Covers) (hsame : file.hdr.SameFile hdr')
include hsame

theorem clip_congr (numBytes position : ℤ) :
    clip { file with hdr := hdr' } numBytes position = file.clip numBytes position := by
  unfold clip
  dsimp only
  rw [hsame.fileLength]

include h

theorem readTurn_congr {first i : ℕ} (hi : first + i < file.hdr.count) (buf : Mem) (s : FsState) :
    readTurn { file with hdr := hdr' } first buf i s = file.readTurn first buf i s := by
  have hother : readTurn { file with hdr := hdr' } first buf i s = _ :=
    readTurn_run (hsame.covers h) (hsame.count ▸ hi) buf s
  rw [readTurn_run h hi buf s, hother]
  dsimp only
  rw [hsame.sector hi]

theorem writeTurn_congr {first i : ℕ} (hi : first + i < file.hdr.count) (buf : Mem) (s : FsState) :
    writeTurn { file with hdr := hdr' } first buf () i s = file.writeTurn first buf () i s := by
  have hother : writeTurn { file with hdr := hdr' } first buf () i s = _ :=
    writeTurn_run (hsame.covers h) (hsame.count ▸ hi) buf s
  rw [writeTurn_run h hi buf s, hother]
  dsimp only
  rw [hsame.sector hi]

/-- `ReadAt` uses only the data sectors of the file. -/
theorem readAt_congr (into : Mem) (offset : ℕ) {n p : ℕ} (hpn : (p + n : ℤ) ≤ INTMAX)
    (s : FsState) :
    readAt { file with hdr := hdr' } into offset n p s = file.readAt into offset n p s := by
  unfold readAt
  dsimp only
  rw [hsame.fileLength]
  by_cases hnone : (n : ℤ) ≤ 0 ∨ (p : ℤ) ≥ file.hdr.fileLength
  · rw [if_pos hnone, if_pos hnone]
  rw [if_neg hnone, if_neg hnone, clip_congr hsame]
  obtain ⟨m, first, last, -, hclip, hspan⟩ := exists_clip h hnone hpn s
  have hle := hspan.first_le
  have hlt := hspan.last_lt
  rw [bind_run hclip, bind_run hclip]
  simp only [hspan.firstSector, hspan.lastSector, hspan.numSectors]
  refine bind_congr rfl fun buf t _ => bind_congr ?_ fun _ _ _ => rfl
  exact foldlM_range_congr (fun i hi b t' => readTurn_congr h hsame (by omega) b t') buf t

theorem readEdge_congr (needed : Bool) (buf : Mem) (offset : ℕ) {i : ℕ} (hi : i < NumDirect)
    (s : FsState) :
    readEdge { file with hdr := hdr' } needed buf offset i s =
      file.readEdge needed buf offset i s := by
  unfold readEdge
  cases needed with
  | false => rw [if_neg Bool.false_ne_true, if_neg Bool.false_ne_true]
  | true =>
    have hpos : (i : ℤ) * (SectorSize : ℕ) = (SectorSize * i : ℕ) := by
      push_cast
      exact Int.mul_comm _ _
    have hpn : ((SectorSize * i : ℕ) + (SectorSize : ℕ) : ℤ) ≤ INTMAX := by
      unfold SectorSize NumDirect INTMAX at *
      omega
    have hread := readAt_congr h hsame buf offset hpn s
    rw [if_pos rfl, if_pos rfl, hpos]
    exact bind_congr hread fun _ _ _ => rfl

/-- `WriteAt` uses only the data sectors of the file. -/
theorem writeAt_congr (src : Mem) {n p : ℕ} (hpn : (p + n : ℤ) ≤ INTMAX) (s : FsState) :
    writeAt { file with hdr := hdr' } src n p s = file.writeAt src n p s := by
  unfold writeAt
  dsimp only
  rw [hsame.fileLength]
  by_cases hnone : (n : ℤ) ≤ 0 ∨ (p : ℤ) ≥ file.hdr.fileLength
  · rw [if_pos hnone, if_pos hnone]
  rw [if_neg hnone, if_neg hnone, clip_congr hsame]
  obtain ⟨m, first, last, -, hclip, hspan⟩ := exists_clip h hnone hpn s
  have hle := hspan.first_le
  have hlt := hspan.last_lt
  have hdirect := h.count_le
  rw [bind_run hclip, bind_run hclip]
  simp only [hspan.firstSector, hspan.lastSector, hspan.numSectors]
  refine bind_congr rfl fun buf t _ => bind_congr ?_ fun buf' t' _ => bind_congr rfl fun _ t'' _ =>
    bind_congr ?_ fun _ _ _ => rfl
  · unfold readEdges
    exact bind_congr (readEdge_congr h hsame _ buf 0 (by omega) t) fun buf'' t'' _ =>
      readEdge_congr h hsame _ buf'' _ (by omega) t''
  · exact foldlM_range_congr (fun i hi b t' => writeTurn_congr h hsame (by omega) _ t') () t''

end Congr

/-! ### In bounds -/

/-- `Allocate` returns; it fails on a file that needs more than `NumDirect` sectors, and then marks
no sector. -/
def AllocatesInside (hdr : FileHeader) (freeMap : BitMap NumSectors) (fileSize : BitVec 32) :
    Prop :=
  ∀ s, ∃ success hdr' freeMap',
    hdr.allocate freeMap fileSize s = .ok ((success, hdr', freeMap'), s) ∧
      (NumDirect < sectorsFor fileSize → success = false) ∧ (success = false → freeMap' = freeMap)

/-- `ReadAt` returns, having read nothing past the end of the file and used no other sector. -/
structure ReadsInside (file : OpenFile) (numBytes position : ℤ) : Prop where
  returns : ∀ into offset s, ∃ m into' t,
    file.readAt into offset numBytes position s = .ok ((m, into'), t) ∧
      0 ≤ m ∧ (0 < m → position + m ≤ file.hdr.fileLength)
  sectors : ∀ into offset, file.UsesOwnSectors fun f => f.readAt into offset numBytes position

/-- `WriteAt` returns, having written nothing past the end of the file and used no other sector. -/
structure WritesInside (file : OpenFile) (numBytes position : ℤ) : Prop where
  returns : ∀ src s, ∃ m t, file.writeAt src numBytes position s = .ok (m, t) ∧
    0 ≤ m ∧ (0 < m → position + m ≤ file.hdr.fileLength)
  sectors : ∀ src, file.UsesOwnSectors fun f => f.writeAt src numBytes position

/-- The request is empty, or starts past the end, or its end is an `int`. -/
def RequestFits (file : OpenFile) (numBytes position : ℤ) : Prop :=
  (numBytes ≤ 0 ∨ position ≥ file.hdr.fileLength) ∨ position + numBytes ≤ INTMAX

theorem allocatesInside_iff (hdr : FileHeader) (freeMap : BitMap NumSectors)
    (fileSize : BitVec 32) :
    AllocatesInside hdr freeMap fileSize ↔
      sectorsFor fileSize ≤ NumDirect ∨ freeMap.numClear < sectorsFor fileSize := by
  rw [BitMap.numClear_eq]
  constructor
  · intro h
    by_contra hno
    rw [not_or, Nat.not_le, Nat.not_lt] at hno
    obtain ⟨success, hdr', freeMap', hrun, -⟩ := h ⟨fun _ => 0, fun _ _ => 0⟩
    rw [hdr.allocate_overrun hno.1 hno.2] at hrun
    cases hrun
  · intro h s
    by_cases hroom : freeMap.clearBits.length < sectorsFor fileSize
    · obtain ⟨hdr', hrun⟩ := hdr.allocate_full hroom s
      exact ⟨false, hdr', freeMap, hrun, fun _ => rfl, fun _ => rfl⟩
    · have hfit : sectorsFor fileSize ≤ NumDirect := h.resolve_right hroom
      obtain ⟨hdr', freeMap', hrun, -⟩ := hdr.allocate_run hfit (Nat.le_of_not_lt hroom) s
      exact ⟨true, hdr', freeMap', hrun, fun hlt => absurd hlt (by omega), fun hf => by cases hf⟩

theorem clip_overflow {numBytes position : ℤ} (h : position + numBytes > INTMAX) (s : FsState) :
    file.clip numBytes position s = .error .overflow := by
  unfold clip
  refine bind_error ?_
  unfold addInt
  rw [if_neg (by omega)]
  rfl

variable {numBytes position : ℤ}

theorem readsInside_iff (h : file.hdr.Covers) (hpos : 0 ≤ position) :
    file.ReadsInside numBytes position ↔ file.RequestFits numBytes position := by
  constructor
  · intro hin
    by_contra hno
    rw [RequestFits, not_or] at hno
    obtain ⟨m, into', t, hrun, -⟩ := hin.returns (fun _ => 0) 0 ⟨fun _ => 0, fun _ _ => 0⟩
    unfold readAt at hrun
    rw [if_neg hno.1, bind_error (clip_overflow (by omega) _)] at hrun
    cases hrun
  · intro hfits
    by_cases hnone : numBytes ≤ 0 ∨ position ≥ file.hdr.fileLength
    · refine ⟨fun into offset s =>
          ⟨0, into, s, readAt_none hnone into offset s, by omega, by omega⟩,
        fun into offset hdr' hsame s => ?_⟩
      dsimp only
      rw [readAt_none hnone into offset s]
      exact readAt_none (by rwa [hsame.fileLength]) into offset s
    · have hsum : position + numBytes ≤ INTMAX := hfits.resolve_left hnone
      have hlen := file.hdr.fileLength_toNat
      obtain ⟨p, rfl⟩ := Int.eq_ofNat_of_zero_le hpos
      obtain ⟨n, rfl⟩ := Int.eq_ofNat_of_zero_le (show 0 ≤ numBytes by omega)
      refine ⟨fun into offset s => ?_, fun into offset hdr' hsame s =>
        readAt_congr h hsame into offset hsum s⟩
      obtain ⟨heap, hrun⟩ := readAt_run h into offset hsum s
      refine ⟨_, _, _, hrun, by omega, fun _ => ?_⟩
      unfold transfer
      omega

theorem writesInside_iff (h : file.hdr.Covers) (hnd : file.hdr.sectors.Nodup)
    (hpos : 0 ≤ position) :
    file.WritesInside numBytes position ↔ file.RequestFits numBytes position := by
  constructor
  · intro hin
    by_contra hno
    rw [RequestFits, not_or] at hno
    obtain ⟨m, t, hrun, -⟩ := hin.returns (fun _ => 0) ⟨fun _ => 0, fun _ _ => 0⟩
    unfold writeAt at hrun
    rw [if_neg hno.1, bind_error (clip_overflow (by omega) _)] at hrun
    cases hrun
  · intro hfits
    by_cases hnone : numBytes ≤ 0 ∨ position ≥ file.hdr.fileLength
    · refine ⟨fun src s => ⟨0, s, writeAt_none hnone src s, by omega, by omega⟩,
        fun src hdr' hsame s => ?_⟩
      dsimp only
      rw [writeAt_none hnone src s]
      exact writeAt_none (by rwa [hsame.fileLength]) src s
    · have hsum : position + numBytes ≤ INTMAX := hfits.resolve_left hnone
      have hlen := file.hdr.fileLength_toNat
      obtain ⟨p, rfl⟩ := Int.eq_ofNat_of_zero_le hpos
      obtain ⟨n, rfl⟩ := Int.eq_ofNat_of_zero_le (show 0 ≤ numBytes by omega)
      refine ⟨fun src s => ?_, fun src hdr' hsame s => writeAt_congr h hsame src hsum s⟩
      obtain ⟨d, heap, hrun, -⟩ := writeAt_run h hnd src hsum s
      refine ⟨_, _, hrun, by omega, fun _ => ?_⟩
      unfold transfer
      omega

/-- **Sizes and transfers stay in bounds exactly when** the file to be made fits into a header or
not onto the disk, and the request is empty, starts past the end, or has an end that is an `int`. -/
theorem bounds_kept_iff (hdr : FileHeader) (freeMap : BitMap NumSectors) (initialSize : BitVec 32)
    {file : OpenFile} (h : file.hdr.Covers) (hnd : file.hdr.sectors.Nodup)
    (numBytes position : BitVec 32) (hpos : 0 ≤ position.toInt) :
    (AllocatesInside hdr freeMap initialSize ∧ file.ReadsInside numBytes.toInt position.toInt ∧
        file.WritesInside numBytes.toInt position.toInt) ↔
      (sectorsFor initialSize ≤ NumDirect ∨ freeMap.numClear < sectorsFor initialSize) ∧
        ((numBytes.toInt ≤ 0 ∨ position.toInt ≥ file.hdr.fileLength) ∨
          position.toInt + numBytes.toInt ≤ INTMAX) := by
  rw [allocatesInside_iff, readsInside_iff h hpos, writesInside_iff h hnd hpos, and_self]
  rfl

theorem bounds_kept_tiny :
    tinyHeader.Covers ∧ tinyHeader.sectors.Nodup ∧
      AllocatesInside tinyHeader (.new NumSectors fun _ => 0) 3840#32 ∧
      OpenFile.ReadsInside ⟨tinyHeader, 0⟩ (100#32).toInt (1#32).toInt ∧
      OpenFile.WritesInside ⟨tinyHeader, 0⟩ (100#32).toInt (1#32).toInt := by
  have hkept := (@bounds_kept_iff tinyHeader (.new NumSectors fun _ => 0) 3840#32
    ⟨tinyHeader, 0⟩ tinyHeader_covers (by decide) 100#32 1#32 (by decide)).2
    ⟨Or.inl (by decide), Or.inr (by decide)⟩
  exact ⟨tinyHeader_covers, by decide, hkept⟩

/-- A file of 31 sectors runs over the end of `dataSectors`, and a request for `INT_MAX` bytes at
position 1 of a file of two bytes overflows. -/
theorem bounds_broken :
    (∀ s, tinyHeader.allocate (.new NumSectors fun _ => 0) 3968#32 s =
      .error (.kernel .wildAccess)) ∧
    (∀ into offset s, OpenFile.readAt ⟨tinyHeader, 0⟩ into offset (2147483647#32).toInt
      (1#32).toInt s = .error .overflow) ∧
    ∀ src s, OpenFile.writeAt ⟨tinyHeader, 0⟩ src (2147483647#32).toInt (1#32).toInt s =
      .error .overflow := by
  have hlarge : ¬ (((2147483647#32).toInt ≤ 0) ∨ (1#32).toInt ≥ tinyHeader.fileLength) := by decide
  refine ⟨fun s => ?_, fun into offset s => ?_, fun src s => ?_⟩
  · refine tinyHeader.allocate_overrun (by decide) ?_ s
    rw [← List.length_map (f := Fin.val), BitMap.clearBits_new, List.length_range']
    decide
  · unfold OpenFile.readAt
    rw [if_neg hlarge]
    exact bind_error (clip_overflow (by decide) s)
  · unfold OpenFile.writeAt
    rw [if_neg hlarge]
    exact bind_error (clip_overflow (by decide) s)

end OpenFile

end Nachos
