import Nachos.Filesys.OpenFile
import Mathlib.Algebra.BigOperators.Group.Finset.Basic
import Mathlib.Data.List.GetD

/-!
# A file as an array of bytes

The bytes of a file are those of its data sectors, up to its length.

* `file_is_byte_array`: `WriteAt` and `ReadAt` are the store to and the load from this array.
* `writeChunks`, `readChunks`: the loops of `fstest.cc`, which write a file piece by piece and read
  it until `Read` returns 0.
* `chunked_io`: the pieces make no difference.

The sector with the end of the file has room for more bytes.  `WriteAt` does not read these, and
writes what happens to be in its buffer there.
-/

namespace Nachos

open ByteMemory Fallible

/-- The contents of a file. -/
def fileBytes (disk : Mem) (hdr : FileHeader) : List Byte :=
  (List.range hdr.length).map (fileByte disk hdr)

namespace OpenFile

variable {file : OpenFile}

/-- The header of a file of two bytes, in sector 5. -/
def tinyHeader : FileHeader := ⟨2, 1, fun _ => 5⟩

/-- A disk with this header in sector 3; the blocks that `new` returns are filled with their
number. -/
def tinyState : FsState where
  disk := copy tinyHeader.toBytes SectorSize (fun _ => 0) (SectorSize * 3)
  heap j _ := .ofNat 8 j

theorem tinyHeader_covers : tinyHeader.Covers where
  count_le := by decide
  sector_lt := by decide
  length_le := by decide

theorem headerAt_tinyState : headerAt tinyState.disk 3 = tinyHeader := by
  refine Eq.trans (FileHeader.ofBytes_congr fun k hk => ?_) (FileHeader.ofBytes_toBytes tinyHeader)
  unfold sectorAt tinyState
  dsimp only
  rw [copy_of_mem (by omega) (by omega), Nat.add_sub_cancel_left]

/-- **A file is an array of bytes.**  A request transfers the bytes that it asks for and that are in
the file.  `WriteAt` puts them there and changes nothing else in the file, and no sector of another
file; `ReadAt` brings them to memory and changes nothing on the disk. -/
theorem file_is_byte_array (h : file.hdr.Covers) (hnd : file.hdr.sectors.Nodup)
    (numBytes position : ℤ) (hpos : 0 ≤ position) (hsum : position + numBytes ≤ INTMAX)
    (s : FsState) :
    ∃ m : ℕ, (m : ℤ) =
        (if numBytes ≤ 0 then 0 else min numBytes (max (file.hdr.fileLength - position) 0)) ∧
      (∀ src, ∃ t, file.writeAt src numBytes position s = .ok ((m : ℤ), t) ∧
        (∀ k < file.hdr.length, fileByte t.disk file.hdr k =
          if position ≤ k ∧ k < position + m then src (k - position.toNat)
          else fileByte s.disk file.hdr k) ∧
        ∀ n, n ∉ file.hdr.sectors → ∀ k < SectorSize, sectorAt t.disk n k = sectorAt s.disk n k) ∧
      ∀ into offset, ∃ into' t,
        file.readAt into offset numBytes position s = .ok (((m : ℤ), into'), t) ∧
        t.disk = s.disk ∧
        (∀ k < m, into' (offset + k) = fileByte s.disk file.hdr (position.toNat + k)) ∧
        ∀ a, a < offset ∨ offset + m ≤ a → into' a = into a := by
  have hlen := file.hdr.fileLength_toNat
  obtain ⟨p, rfl⟩ := Int.eq_ofNat_of_zero_le hpos
  by_cases hn : numBytes ≤ 0
  · -- nothing is asked for
    refine ⟨0, (if_pos hn).symm, fun src => ⟨s, writeAt_none (Or.inl hn) src s, fun k _ => ?_,
      fun n _ k _ => rfl⟩, fun into offset => ⟨into, s, readAt_none (Or.inl hn) into offset s, rfl,
      fun k hk => absurd hk (by omega), fun a _ => rfl⟩⟩
    exact (if_neg (by omega)).symm
  · obtain ⟨n, rfl⟩ := Int.eq_ofNat_of_zero_le (show 0 ≤ numBytes by omega)
    refine ⟨file.transfer n p, ?_, fun src => ?_, fun into offset => ?_⟩
    · rw [if_neg hn]
      unfold transfer
      omega
    · obtain ⟨d, heap, hrun, hbytes, hframe⟩ := writeAt_run h hnd src hsum s
      refine ⟨_, hrun, fun k hk => ?_, fun m hm k hk => hframe.sectorAt hm hk⟩
      rw [hbytes k hk]
      exact if_congr (by omega) rfl rfl
    · obtain ⟨heap, hrun⟩ := readAt_run h into offset hsum s
      refine ⟨_, _, hrun, rfl, fun k hk => ?_, fun a ha => copy_of_not_mem ha⟩
      rw [copy_of_mem (by omega) (by omega), Nat.add_sub_cancel_left]
      rfl

theorem file_is_byte_array_tiny :
    tinyHeader.Covers ∧ tinyHeader.sectors.Nodup ∧
      ∃ t, OpenFile.writeAt ⟨tinyHeader, 0⟩ (fun _ => 9) 5 1 tinyState = .ok (1, t) ∧
        fileByte t.disk tinyHeader 0 = fileByte tinyState.disk tinyHeader 0 ∧
        fileByte t.disk tinyHeader 1 = 9 := by
  obtain ⟨m, hm, hwrite, -⟩ := @file_is_byte_array ⟨tinyHeader, 0⟩ tinyHeader_covers
    (by decide) 5 1 (by decide) (by decide) tinyState
  obtain rfl : m = 1 := by
    have : tinyHeader.fileLength = 2 := by decide
    rw [if_neg (by decide)] at hm
    dsimp only at hm
    omega
  obtain ⟨t, hrun, hbytes, -⟩ := hwrite fun _ => 9
  exact ⟨tinyHeader_covers, by decide, t, hrun, hbytes 0 (by decide), hbytes 1 (by decide)⟩

/-! ### Piece by piece -/

/-- A list of bytes in memory. -/
def memOf (l : List Byte) : Mem := fun k => l.getD k 0

/-- `OpenFile::Write` on one chunk after the other. -/
def writeChunks : OpenFile → List (List Byte) → Fs OpenFile
  | file, [] => return file
  | file, chunk :: chunks => do
    let p ← file.write (memOf chunk) chunk.length
    writeChunks p.2 chunks

/-- `while ((amountRead = openFile->Read(buffer, size)) > 0)`, with a size for each turn: the bytes
read, or `none` if the loop has not ended after so many turns. -/
def readChunks (buffer : Mem) (sizes : ℕ → ℕ) : ℕ → OpenFile → Fs (Option (List Byte))
  | 0, _ => return none
  | turns + 1, file => do
    let p ← file.read buffer (sizes 0)
    if p.1 > 0 then
      let rest ← readChunks p.2.1 (fun k => sizes (k + 1)) turns p.2.2
      return rest.map fun bytes => (List.range p.1.toNat).map p.2.1 ++ bytes
    return some []

theorem memOf_append_left {l l' : List Byte} {k : ℕ} (hk : k < l.length) :
    memOf (l ++ l') k = memOf l k := List.getD_append _ _ _ _ hk

theorem memOf_append_right {l l' : List Byte} {k : ℕ} (hk : l.length ≤ k) :
    memOf (l ++ l') k = memOf l' (k - l.length) := List.getD_append_right _ _ _ _ hk

/-- The loop over the chunks writes their concatenation. -/
theorem writeChunks_run (h : file.hdr.Covers) (hnd : file.hdr.sectors.Nodup)
    (chunks : List (List Byte)) {p : ℕ} (hp : file.seekPosition = p)
    (hfit : p + chunks.flatten.length ≤ file.hdr.length) (s : FsState) :
    ∃ file' d heap, writeChunks file chunks s = .ok (file', ⟨d, heap⟩) ∧
      (∀ k, k / SectorSize < file.hdr.count → ¬ PastEnd file.hdr k → fileByte d file.hdr k =
        if p ≤ k ∧ k < p + chunks.flatten.length then memOf chunks.flatten (k - p)
        else fileByte s.disk file.hdr k) ∧
      ChangesOnly file.hdr.sectors s.disk d := by
  induction chunks generalizing file p s with
  | nil =>
    refine ⟨file, s.disk, s.heap, rfl, fun k _ _ => (if_neg ?_).symm, .refl _ _⟩
    simp
  | cons chunk chunks ih =>
    rw [List.flatten_cons, List.length_append] at hfit
    have htransfer : file.transfer chunk.length p = chunk.length := by
      unfold transfer
      omega
    obtain ⟨d₁, heap₁, hwrite, hbytes₁, hframe₁⟩ := writeAt_run_sectors h hnd (memOf chunk)
      (n := chunk.length) (p := p) (end_le h (by omega)) s
    rw [htransfer] at hwrite hbytes₁
    obtain ⟨file', d₂, heap₂, hrest, hbytes₂, hframe₂⟩ :=
      @ih { file with seekPosition := file.seekPosition + chunk.length }
        h hnd (p + chunk.length) (by rw [hp]; push_cast; rfl) (by dsimp only; omega) ⟨d₁, heap₁⟩
    refine ⟨file', d₂, heap₂, ?_, fun k hk hend => ?_,
      (hframe₁.trans hframe₂).mono fun n hn => by simpa using hn⟩
    · unfold writeChunks write
      rw [hp, bind_run (bind_run hwrite), ← hp]
      exact hrest
    · rw [hbytes₂ k hk hend, hbytes₁ k hk hend, List.flatten_cons, List.length_append]
      -- the byte is in a later chunk, in this one, or in none
      by_cases hlater : p + chunk.length ≤ k ∧ k < p + chunk.length + chunks.flatten.length
      · rw [if_pos hlater, if_pos (by omega), memOf_append_right (by omega)]
        exact congrArg _ (by omega)
      · rw [if_neg hlater]
        by_cases hthis : p ≤ k ∧ k < p + chunk.length
        · rw [if_pos hthis, if_pos (by omega), memOf_append_left (by omega)]
        · rw [if_neg hthis, if_neg (by omega)]

/-- The addresses on the disk that lie past the end of a file, in its last sector. -/
def DiskPastEnd (hdr : FileHeader) (a : ℕ) : Prop :=
  ∃ k, k / SectorSize < hdr.count ∧ PastEnd hdr k ∧
    a = SectorSize * hdr.sector (k / SectorSize) + k % SectorSize

/-- Disks that agree outside a file and on its bytes agree, but for what lies past its end. -/
theorem disk_eq_of_fileByte {hdr : FileHeader} {d d₁ d₂ : Mem}
    (h₁ : ChangesOnly hdr.sectors d d₁) (h₂ : ChangesOnly hdr.sectors d d₂)
    (h : ∀ k, k / SectorSize < hdr.count → ¬ PastEnd hdr k → fileByte d₁ hdr k = fileByte d₂ hdr k)
    {a : ℕ} (ha : ¬ DiskPastEnd hdr a) : d₁ a = d₂ a := by
  by_cases hmem : a / SectorSize ∈ hdr.sectors
  · obtain ⟨i, hi, hsector⟩ := FileHeader.mem_sectors.1 hmem
    -- address `a` is byte `k` of the data sectors
    obtain ⟨k, hdiv, hmod⟩ : ∃ k, k / SectorSize = i ∧ k % SectorSize = a % SectorSize :=
      ⟨SectorSize * i + a % SectorSize, by unfold SectorSize; omega, by unfold SectorSize; omega⟩
    have hk : k / SectorSize < hdr.count := by rw [hdiv]; exact hi
    have haddr : a = SectorSize * hdr.sector (k / SectorSize) + k % SectorSize := by
      rw [hdiv, hmod, hsector]
      exact (Nat.div_add_mod a SectorSize).symm
    have hbyte := h k hk fun hend => ha ⟨k, hk, hend, haddr⟩
    unfold fileByte at hbyte
    rwa [← haddr] at hbyte
  · rw [h₁ a hmem, h₂ a hmem]

/-- `Read` brings the next bytes into the buffer. -/
theorem read_run (h : file.hdr.Covers) (buffer : Mem) {p n : ℕ} (hp : file.seekPosition = p)
    (hpn : p < file.hdr.length → (p + n : ℤ) ≤ INTMAX) (s : FsState) :
    ∃ buffer' heap, file.read buffer n s = .ok (((file.transfer n p : ℤ), buffer',
        { file with seekPosition := (p + file.transfer n p : ℕ) }), { s with heap := heap }) ∧
      ∀ k < file.transfer n p, buffer' k = fileByte s.disk file.hdr (p + k) := by
  by_cases hlt : p < file.hdr.length
  · obtain ⟨heap, hread⟩ := readAt_run h buffer 0 (hpn hlt) s
    refine ⟨copy (fun k => fileByte s.disk file.hdr (p + k)) (file.transfer n p)
      buffer 0, heap, ?_, fun k hk => ?_⟩
    · unfold read
      rw [hp, bind_run hread]
      rfl
    · rw [copy_of_mem (by omega) (by omega), Nat.sub_zero]
  · -- at the end of the file
    have hlen := file.hdr.fileLength_toNat
    have hzero : file.transfer n p = 0 := by unfold transfer; omega
    have hread : file.readAt buffer 0 n p s = .ok ((0, buffer), s) :=
      readAt_none (Or.inr (by omega)) buffer 0 s
    refine ⟨buffer, s.heap, ?_, fun k hk => absurd hk (by omega)⟩
    unfold read
    rw [hp, bind_run hread, hzero, Nat.add_zero]
    simp only [Int.add_zero]
    rfl

/-- Every read that starts in the file asks for an end that is an `int`. -/
def SumsFit (length p : ℕ) (sizes : ℕ → ℕ) : Prop :=
  ∀ k, p + ∑ j ∈ Finset.range k, sizes j < length →
    (p + ∑ j ∈ Finset.range (k + 1), sizes j : ℤ) ≤ INTMAX

/-- The reads after the first one, which is short only at the end of the file. -/
theorem SumsFit.tail {length p m : ℕ} {sizes : ℕ → ℕ} (h : SumsFit length p sizes)
    (hm : m ≤ sizes 0) (hshort : m < sizes 0 → p + m = length) :
    SumsFit length (p + m) fun k => sizes (k + 1) := by
  intro k hk
  dsimp only at hk ⊢
  have hmeq : m = sizes 0 := by
    by_contra hne
    have := hshort (by omega)
    omega
  have hk' := h (k + 1)
  rw [Finset.sum_range_succ' _ k, Finset.sum_range_succ' _ (k + 1)] at hk'
  have := hk' (by omega)
  push_cast at this ⊢
  rw [hmeq]
  omega

/-- The loop of reads yields the rest of the file. -/
theorem readChunks_run (h : file.hdr.Covers) {p : ℕ} (hp : file.seekPosition = p)
    (hle : p ≤ file.hdr.length) {sizes : ℕ → ℕ} (hpos : ∀ k, 0 < sizes k)
    (hfit : SumsFit file.hdr.length p sizes) (buffer : Mem) {turns : ℕ}
    (hturns : file.hdr.length - p < turns) (s : FsState) :
    ∃ heap, readChunks buffer sizes turns file s =
      .ok (some ((List.range' p (file.hdr.length - p)).map (fileByte s.disk file.hdr)),
        { s with heap := heap }) := by
  induction turns generalizing file p sizes buffer s with
  | zero => omega
  | succ turns ih =>
    have hfirst : p < file.hdr.length → (p + sizes 0 : ℤ) ≤ INTMAX := by
      intro hlt
      simpa using hfit 0 (by simpa using hlt)
    obtain ⟨buffer', heap, hread, hbytes⟩ := read_run h buffer hp hfirst s
    have h0 := hpos 0
    by_cases hend : p = file.hdr.length
    · have hzero : file.transfer (sizes 0) p = 0 := by unfold transfer; omega
      refine ⟨heap, ?_⟩
      unfold readChunks
      rw [bind_run hread, hzero, hend, Nat.sub_self]
      rfl
    · obtain ⟨m, hm⟩ : ∃ m, file.transfer (sizes 0) p = m := ⟨_, rfl⟩
      rw [hm] at hread hbytes
      have hm0 : 0 < m ∧ m ≤ sizes 0 ∧ p + m ≤ file.hdr.length ∧
          (m < sizes 0 → p + m = file.hdr.length) := by
        unfold transfer at hm
        omega
      have hfit' := hfit.tail hm0.2.1 hm0.2.2.2
      obtain ⟨heap', hrest⟩ := @ih { file with seekPosition := (p + m : ℕ) } h _ rfl
        hm0.2.2.1 _ (fun k => hpos (k + 1)) hfit' buffer' (by dsimp only; omega)
        { s with heap := heap }
      refine ⟨heap', ?_⟩
      unfold readChunks
      rw [bind_run hread, if_pos (by simpa using hm0.1), bind_run hrest]
      have hsplit : List.range' p (file.hdr.length - p) =
          List.range' p m ++ List.range' (p + m) (file.hdr.length - (p + m)) := by
        rw [List.range'_append_1]
        congr 1
        omega
      have hpiece : (List.range m).map buffer' =
          (List.range' p m).map (fileByte s.disk file.hdr) := by
        rw [List.range'_eq_map_range, List.map_map]
        exact List.map_congr_left fun k hk => hbytes k (List.mem_range.1 hk)
      rw [hsplit, List.map_append, ← hpiece]
      rfl

/-- **Piece by piece or at once.**  After a file is opened, writing a string that fits into it chunk
by chunk leaves the same disk as writing it at once, but for what lies past the end of the file in
its last sector; and reading it until `Read` returns 0 yields its bytes in order, whatever the sizes
are, as long as the ends that the reads ask for are `int`s. -/
theorem chunked_io {n : ℕ} {s : FsState} (hn : n < NumSectors) (h : (headerAt s.disk n).Covers)
    (hnd : (headerAt s.disk n).sectors.Nodup) :
    ∃ file s₁, OpenFile.new n s = .ok (file, s₁) ∧ file.hdr = headerAt s.disk n ∧
      (∀ chunks : List (List Byte), chunks.flatten.length ≤ file.hdr.length →
        ∃ file' t t', writeChunks file chunks s₁ = .ok (file', t) ∧
          file.writeAt (memOf chunks.flatten) chunks.flatten.length 0 s₁ =
            .ok ((chunks.flatten.length : ℤ), t') ∧
          ∀ a, ¬ DiskPastEnd file.hdr a → t.disk a = t'.disk a) ∧
      ∀ sizes : ℕ → ℕ, (∀ k, 0 < sizes k) → SumsFit file.hdr.length 0 sizes →
        ∀ buffer turns, file.hdr.length < turns →
          ∃ t, readChunks buffer sizes turns file s₁ = .ok (some (fileBytes s.disk file.hdr), t) ∧
            t.disk = s.disk := by
  obtain ⟨heap, hnew⟩ := new_run hn s
  refine ⟨_, _, hnew, rfl, fun chunks hfit => ?_, fun sizes hpos hsums buffer turns hturns => ?_⟩
  · obtain ⟨file', d, heap₁, hrun, hbytes, hframe⟩ := @writeChunks_run
      ⟨headerAt s.disk n, 0⟩ h hnd chunks 0 rfl (by omega) { s with heap := heap }
    obtain ⟨d', heap₂, hrun', hbytes', hframe'⟩ := @writeAt_run_sectors
      ⟨headerAt s.disk n, 0⟩ chunks.flatten.length h hnd (memOf chunks.flatten) 0
      (end_le h (by rwa [Nat.zero_add])) { s with heap := heap }
    have htransfer : transfer ⟨headerAt s.disk n, 0⟩ chunks.flatten.length 0 =
        chunks.flatten.length := by
      unfold transfer
      dsimp only at hfit ⊢
      omega
    rw [htransfer] at hrun' hbytes'
    refine ⟨file', _, _, hrun, hrun', fun a ha => disk_eq_of_fileByte hframe hframe' ?_ ha⟩
    intro k hk hend
    rw [hbytes k hk hend, hbytes' k hk hend]
  · obtain ⟨heap₁, hrun⟩ := @readChunks_run ⟨headerAt s.disk n, 0⟩ h 0 rfl
      (Nat.zero_le _) sizes hpos hsums buffer turns (by dsimp only at hturns ⊢; omega)
      { s with heap := heap }
    rw [Nat.sub_zero, ← List.range_eq_range'] at hrun
    exact ⟨_, hrun, rfl⟩

theorem new_tinyState :
    OpenFile.new (3 : ℕ) tinyState =
      .ok (⟨tinyHeader, 0⟩, ⟨tinyState.disk, fun j _ => .ofNat 8 (j + 1)⟩) := by
  unfold OpenFile.new
  rw [bind_run (show newBlock tinyState = .ok _ from rfl),
    bind_run (FileHeader.fetchFrom_run (by decide) _ _),
    show headerAt _ 3 = tinyHeader from headerAt_tinyState]
  rfl

/-- A file of two bytes is written and read byte by byte. -/
theorem chunked_io_tiny :
    (headerAt tinyState.disk 3).Covers ∧ (headerAt tinyState.disk 3).sectors.Nodup ∧
      ∃ file s₁ file' t t' u, OpenFile.new (3 : ℕ) tinyState = .ok (file, s₁) ∧
        writeChunks file [[7], [8]] s₁ = .ok (file', t) ∧
        file.writeAt (memOf [7, 8]) 2 0 s₁ = .ok (2, t') ∧
        (∀ a, ¬ DiskPastEnd file.hdr a → t.disk a = t'.disk a) ∧
        readChunks (fun _ => 0) (fun _ => 1) 3 file s₁ =
          .ok (some (fileBytes tinyState.disk file.hdr), u) := by
  have hcovers : (headerAt tinyState.disk 3).Covers := headerAt_tinyState ▸ tinyHeader_covers
  have hnodup : (headerAt tinyState.disk 3).sectors.Nodup := by
    rw [headerAt_tinyState]
    decide
  obtain ⟨file, s₁, hnew, hhdr, hwrite, hread⟩ := chunked_io (n := 3) (s := tinyState) (by decide)
    hcovers hnodup
  have hlen : file.hdr.length = 2 := by
    rw [hhdr, headerAt_tinyState]
    decide
  obtain ⟨file', t, t', hchunks, hwhole, hsame⟩ := hwrite [[7], [8]] hlen.ge
  have hfit : SumsFit file.hdr.length 0 fun _ => 1 := by
    intro k hk
    rw [hlen] at hk
    simp at hk ⊢
    omega
  obtain ⟨u, hrun, -⟩ := hread (fun _ => 1) (fun _ => Nat.one_pos) hfit (fun _ => 0) 3 (by omega)
  exact ⟨hcovers, hnodup, file, s₁, file', t, t', u, hnew, hchunks, hwhole, hsame, hrun⟩

/-- The file is written byte by byte: the last sector is filled up from another buffer than when it
is written at once.  It is read with 1 byte and then with `INT_MAX` bytes: the sum overflows. -/
theorem chunked_io_differs :
    ∃ file s₁, OpenFile.new (3 : ℕ) tinyState = .ok (file, s₁) ∧ file.hdr.Covers ∧
      file.hdr.sectors.Nodup ∧ file.hdr.length = 2 ∧
      (∃ file' t t', writeChunks file [[7], [8]] s₁ = .ok (file', t) ∧
        file.writeAt (memOf [7, 8]) 2 0 s₁ = .ok (2, t') ∧ t.disk ≠ t'.disk) ∧
      ∀ buffer, readChunks buffer (fun k => if k = 0 then 1 else 2147483647) 3 file s₁ =
        .error .overflow := by
  refine ⟨_, _, new_tinyState, tinyHeader_covers, by decide, by decide, ?_, fun buffer => rfl⟩
  have hchunks : ((writeChunks ⟨tinyHeader, 0⟩ [[7], [8]]
      ⟨tinyState.disk, fun j _ => .ofNat 8 (j + 1)⟩).toOption.map fun p => p.2.disk 740) =
        some 3 := by decide +kernel
  have hwhole : ((OpenFile.writeAt ⟨tinyHeader, 0⟩ (memOf [7, 8]) 2 0
      ⟨tinyState.disk, fun j _ => .ofNat 8 (j + 1)⟩).toOption.map fun p => (p.1, p.2.disk 740)) =
        some (2, 1) := by decide +kernel
  obtain ⟨⟨file', t⟩, hrun, hbyte⟩ := Option.map_eq_some_iff.1 hchunks
  obtain ⟨⟨r, t'⟩, hrun', hbyte'⟩ := Option.map_eq_some_iff.1 hwhole
  obtain ⟨rfl, hbyte'⟩ := Prod.ext_iff.1 hbyte'
  refine ⟨file', t, t', toOption_eq_some.1 hrun, toOption_eq_some.1 hrun', fun heq => ?_⟩
  dsimp only at hbyte hbyte'
  rw [heq, hbyte'] at hbyte
  exact absurd hbyte (by decide)

end OpenFile

end Nachos
