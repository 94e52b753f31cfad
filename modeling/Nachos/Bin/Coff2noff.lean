import Nachos.Lib.Effect
import Nachos.Lib.Tiling
import Nachos.Machine.Basic

/-!
# From COFF to NOFF

`bin/coff2noff.c`: the headers of the COFF file, the loop over its sections, and the NOFF file that
is written.  The numbers of both formats are C `int`s, that is, patterns of 32 bits; a sum that is
not an `int` wraps.  What the host does when memory or disk run out, and that it transfers less than
2 GB at a time, is not modelled.

* `Noff.load` is one turn of the loop, and `coff2noff` the program.
* `File.IntsFit` says that the `int`s of a file are those of an object file.
* `Noff.Copied` says what the loop has done with the sections so far; `CopiedAll.exists_loaded` and
  `CopiedAll.loaded` say when a turn succeeds, and what it leaves.
* `coff2noff_preserves_iff` compares the program image before and after, and `noffHeader_coff2noff`
  reads the header back as the kernel does.
* `negative_size_misplaces`: `Read` and `Write` take -1 bytes for a success.
-/

namespace Nachos

open Fallible Tiling

/-! ### The COFF file -/

/-- The numbers of `coff.h`. -/
def MIPSELMAGIC : ℕ := 0x0162

/-- In octal, 0407. -/
def OMAGIC : ℕ := 263

/-- `sizeof(struct filehdr)`. -/
abbrev filehdrSize : ℕ := 20

/-- `sizeof(struct aouthdr)`. -/
abbrev aouthdrSize : ℕ := 56

/-- `sizeof(struct scnhdr)`. -/
abbrev scnhdrSize : ℕ := 40

/-- `sizeof(NoffHeader)`. -/
abbrev noffHeaderSize : ℕ := 40

/-- The fields of `struct scnhdr` that are used.  The name is a string of at most 8 characters, and
`DWORD` is `int`. -/
structure Scnhdr where
  s_name : List Char
  s_paddr : BitVec 32
  s_size : BitVec 32
  s_scnptr : BitVec 32
  deriving DecidableEq, Repr

namespace Scnhdr

/-- The first address of a section. -/
abbrev addr (sec : Scnhdr) : ℕ := sec.s_paddr.toNat

/-- The number of its bytes. -/
abbrev size (sec : Scnhdr) : ℕ := sec.s_size.toNat

/-- Where they are in the file. -/
abbrev place (sec : Scnhdr) : ℕ := sec.s_scnptr.toNat

end Scnhdr

/-- The sections by what is done with them. -/
inductive SectionKind
  | text
  | data
  | bss
  | unknown
  deriving DecidableEq, Repr

/-- The comparisons of the name. -/
def Scnhdr.kind (sec : Scnhdr) : SectionKind :=
  if sec.s_name = ".text".toList then .text
  else if sec.s_name = ".data".toList ∨ sec.s_name = ".rdata".toList then .data
  else if sec.s_name = ".bss".toList ∨ sec.s_name = ".sbss".toList then .bss
  else .unknown

namespace File

/-- The 16-bit little-endian number at a position. -/
def half (f : File) (k : ℕ) : ℕ := (f.byte k).toNat + 256 * (f.byte (k + 1)).toNat

/-- The characters before the first zero of the 8 at a position. -/
def name (f : File) (k : ℕ) : List Char :=
  ((List.range 8).map fun i => Char.ofNat (f.byte (k + i)).toNat).takeWhile (· ≠ Char.ofNat 0)

/-- The section header at a position. -/
def scnhdr (f : File) (k : ℕ) : Scnhdr :=
  ⟨f.name k, .ofNat 32 (f.word (k + 8)), .ofNat 32 (f.word (k + 16)), .ofNat 32 (f.word (k + 20))⟩

/-- The section headers, `f_nscns` of them. -/
def sections (f : File) : List Scnhdr :=
  (List.range (f.half 2)).map fun i => f.scnhdr (filehdrSize + aouthdrSize + scnhdrSize * i)

end File

/-- Why a file is rejected. -/
inductive CoffError
  | tooShort                                -- "File is too short"
  | notMipsel                               -- "File is not a MIPSEL COFF file"
  | notOmagic                               -- "File is not a OMAGIC file"
  | dataAndRdata                            -- "Can't handle both data and rdata"
  | bssAndSbss                              -- "Can't handle both bss and sbss"
  | unknownSegment (s_name : List Char)     -- "Unknown segment type: %s"
  deriving DecidableEq, Repr

/-- What `read(fd, buf, nBytes)` returns at a position: a negative number is no size, and stands for
an error. -/
def File.readCount (f : File) (position : ℕ) (nBytes : ℤ) : ℤ :=
  if nBytes < 0 then -1 else min nBytes ((f.length - position : ℕ) : ℤ)

/-- `Read(fd, buf, nBytes)` at a position.  The buffer for -1 bytes is not filled, and not used. -/
def File.read (f : File) (position : ℕ) (nBytes : ℤ) : Except CoffError (ℕ → Byte) :=
  if f.readCount position nBytes ≠ nBytes then throw .tooShort
  else pure fun k => f.byte (position + k)

/-- The position after `lseek(fd, offset, 0)`, which fails if the offset is negative. -/
def lseek (position : ℕ) (offset : BitVec 32) : ℕ :=
  if offset.toInt < 0 then position else offset.toNat

/-- A test that rejects the file if it fails. -/
def require (c : Prop) [Decidable c] (e : CoffError) : Except CoffError Unit :=
  if c then pure () else throw e

/-! ### The conversion -/

/-- The variables of the loop, the positions in the two files, and the file that is written. -/
structure Noff where
  noffH : NoffHeader
  inNoffFile : BitVec 32
  inPosition : ℕ
  outPosition : ℕ
  fdOut : File

namespace Noff

/-- `noffH` holds what the stack held, but for the sizes; `numsections` headers have been read. -/
def start (noffH : NoffHeader) (numsections : ℕ) : Noff where
  noffH :=
    { noffMagic := NOFFMAGIC
      code := { noffH.code with size := 0 }
      initData := { noffH.initData with size := 0 }
      uninitData := { noffH.uninitData with size := 0 } }
  inNoffFile := .ofNat 32 noffHeaderSize
  inPosition := filehdrSize + aouthdrSize + numsections * scnhdrSize
  outPosition := noffHeaderSize
  fdOut := ⟨0, fun _ => 0⟩

/-- `lseek`, `Read`, `Write`: the contents of a section are copied.  `Write` takes what `Read` has
taken; for -1 bytes nothing is transferred. -/
def copy (fdIn : File) (sec : Scnhdr) (noff : Noff) : Except CoffError Noff := do
  let position := lseek noff.inPosition sec.s_scnptr
  let buffer ← fdIn.read position sec.s_size.toInt
  let count := sec.s_size.toInt.toNat
  pure { noff with
    inNoffFile := noff.inNoffFile + sec.s_size
    inPosition := position + count
    outPosition := noff.outPosition + count
    fdOut := noff.fdOut.writeAt buffer 0 count noff.outPosition }

/-- `noffH.code = seg`. -/
def setCode (seg : Segment) (noff : Noff) : Noff :=
  { noff with noffH := { noff.noffH with code := seg } }

/-- `noffH.initData = seg`. -/
def setInitData (seg : Segment) (noff : Noff) : Noff :=
  { noff with noffH := { noff.noffH with initData := seg } }

/-- `noffH.uninitData.virtualAddr` and `noffH.uninitData.size` are set. -/
def setUninitData (virtualAddr size : ℕ) (noff : Noff) : Noff :=
  { noff with noffH := { noff.noffH with
      uninitData := { noff.noffH.uninitData with virtualAddr := virtualAddr, size := size } } }

/-- One turn of the loop. -/
def load (fdIn : File) (noff : Noff) (sec : Scnhdr) : Except CoffError Noff :=
  if sec.s_size = 0#32 then pure noff
  else match sec.kind with
  | .text => copy fdIn sec (noff.setCode ⟨sec.addr, noff.inNoffFile.toNat, sec.size⟩)
  | .data =>
    if noff.noffH.initData.size ≠ 0 then throw .dataAndRdata
    else copy fdIn sec (noff.setInitData ⟨sec.addr, noff.inNoffFile.toNat, sec.size⟩)
  | .bss =>
    if noff.noffH.uninitData.size ≠ 0 then
      if sec.addr = (noff.noffH.uninitData.virtualAddr + noff.noffH.uninitData.size) % 2 ^ 32 then
        throw .bssAndSbss
      else
        pure (noff.setUninitData noff.noffH.uninitData.virtualAddr
          ((noff.noffH.uninitData.size + sec.size) % 2 ^ 32))
    else pure (noff.setUninitData sec.addr sec.size)
  | .unknown => throw (.unknownSegment sec.s_name)

end Noff

/-- The `int`s of a header, in the order in which they are stored. -/
def NoffHeader.words (noffH : NoffHeader) : List ℕ :=
  [noffH.noffMagic, noffH.code.virtualAddr, noffH.code.inFileAddr, noffH.code.size,
    noffH.initData.virtualAddr, noffH.initData.inFileAddr, noffH.initData.size,
    noffH.uninitData.virtualAddr, noffH.uninitData.inFileAddr, noffH.uninitData.size]

/-- The bytes of a header. -/
def NoffHeader.bytes (noffH : NoffHeader) (k : ℕ) : Byte :=
  BitVec.ofNat 8 (noffH.words.getD (k / 4) 0 / 256 ^ (k % 4))

/-- `lseek(fdOut, 0, 0)`, and the header is written. -/
def Noff.finish (noff : Noff) : Noff :=
  { noff with fdOut := noff.fdOut.writeAt noff.noffH.bytes 0 noffHeaderSize 0 }

/-- `main`, with what the stack holds where `noffH` is. -/
def coff2noff (noffH : NoffHeader) (fdIn : File) : Except CoffError Noff := do
  let _ ← fdIn.read 0 filehdrSize
  require (fdIn.half 0 = MIPSELMAGIC) .notMipsel
  let _ ← fdIn.read filehdrSize aouthdrSize
  require (fdIn.half filehdrSize = OMAGIC) .notOmagic
  let _ ← fdIn.read (filehdrSize + aouthdrSize) (fdIn.half 2 * scnhdrSize : ℕ)
  let noff ← fdIn.sections.foldlM (Noff.load fdIn) (Noff.start noffH (fdIn.half 2))
  pure noff.finish

/-! ### The program image -/

/-- The sections of a kind that are not empty. -/
def ofKind (k : SectionKind) (secs : List Scnhdr) : List Scnhdr :=
  secs.filter fun sec => decide (sec.s_size ≠ 0#32 ∧ sec.kind = k)

/-- The section of `fdIn` has the byte `b` for the address `a`. -/
def Scnhdr.Holds (fdIn : File) (sec : Scnhdr) (a : ℕ) (b : Byte) : Prop :=
  sec.addr ≤ a ∧ a < sec.addr + sec.size ∧ fdIn.byte (sec.place + (a - sec.addr)) = b

/-- The segment of `fdOut` has the byte `b` for the address `a`. -/
def Segment.Holds (fdOut : File) (seg : Segment) (a : ℕ) (b : Byte) : Prop :=
  seg.virtualAddr ≤ a ∧ a < seg.virtualAddr + seg.size ∧
    fdOut.get? (seg.inFileAddr + (a - seg.virtualAddr)) = some b

/-- Some section starts where those before it end if they are put end to end from the first on. -/
def Meets : List Scnhdr → Prop
  | [] => False
  | first :: rest => Joins Scnhdr.addr Scnhdr.size (first.addr + first.size) rest

/-- Each section starts where the one before it ends. -/
def Contiguous : List Scnhdr → Prop
  | [] => True
  | first :: rest => EndToEnd Scnhdr.addr Scnhdr.size (first.addr + first.size) rest

/-- In some order the sections follow each other, without gaps and from the address of the first of
the list on. -/
def Tiles : List Scnhdr → Prop
  | [] => True
  | first :: rest =>
    ∃ l, l.Perm (first :: rest) ∧ EndToEnd Scnhdr.addr Scnhdr.size first.addr l

/-- The NOFF file of these sections has a length that is an `int`, and so has the range of the
uninitialised data its end. -/
structure Room (secs : List Scnhdr) : Prop where
  contents : noffHeaderSize + total Scnhdr.size (ofKind .text secs) +
    total Scnhdr.size (ofKind .data secs) ≤ INTMAX
  space : ∀ first ∈ (ofKind .bss secs).head?,
    first.addr + total Scnhdr.size (ofKind .bss secs) ≤ INTMAX

/-- The contents of a section are looked for where they are, and -1 is not their size. -/
def Scnhdr.Readable (sec : Scnhdr) : Prop := 0 ≤ sec.s_scnptr.toInt ∧ sec.s_size.toInt ≠ -1

namespace File

variable (fdIn : File)

/-- The sections `.text` that are not empty. -/
def texts : List Scnhdr := ofKind .text fdIn.sections

/-- The sections `.data` and `.rdata` that are not empty. -/
def datas : List Scnhdr := ofKind .data fdIn.sections

/-- The sections `.bss` and `.sbss` that are not empty. -/
def bsss : List Scnhdr := ofKind .bss fdIn.sections

/-- The headers are those of a COFF file that is linked for the machine. -/
structure HasHeaders : Prop where
  magic : fdIn.half 0 = MIPSELMAGIC
  omagic : fdIn.half filehdrSize = OMAGIC
  table : filehdrSize + aouthdrSize + fdIn.half 2 * scnhdrSize ≤ fdIn.length

/-- The contents of the section are in the file. -/
def HasContents (sec : Scnhdr) : Prop :=
  0 ≤ sec.s_size.toInt ∧ sec.place + sec.size ≤ fdIn.length

/-- A section that is empty, or of a known kind and with its contents in the file. -/
def HasSection (sec : Scnhdr) : Prop :=
  sec.s_size = 0#32 ∨ sec.kind = .bss ∨
    (sec.kind = .text ∨ sec.kind = .data) ∧ fdIn.HasContents sec

/-- A COFF file with all of its sections. -/
structure IsCoff : Prop extends fdIn.HasHeaders where
  sections : ∀ sec ∈ fdIn.sections, fdIn.HasSection sec

/-- The `int`s of a COFF file are those of an object file: no position is negative and no size is
-1, and if the file is complete the sums are `int`s. -/
structure IntsFit : Prop where
  readable : ∀ sec ∈ fdIn.texts ++ fdIn.datas, sec.Readable
  room : fdIn.IsCoff → Room fdIn.sections

/-- The image is in the NOFF file: every byte of code and data is in the code segment or in that
of the initialised data, and the uninitialised data are where they were. -/
def ImageIn (noff : Noff) : Prop :=
  (∀ sec ∈ fdIn.texts ++ fdIn.datas, ∀ a b, sec.Holds fdIn a b →
    noff.noffH.code.Holds noff.fdOut a b ∨ noff.noffH.initData.Holds noff.fdOut a b) ∧
  covered Scnhdr.addr Scnhdr.size fdIn.bsss =
    Set.Ico noff.noffH.uninitData.virtualAddr
      (noff.noffH.uninitData.virtualAddr + noff.noffH.uninitData.size)

/-- Every byte of every `.text` is also in the last `.text`, or in the data, at the same address. -/
def LastTextHolds : Prop :=
  ∀ sec ∈ fdIn.texts, ∀ a b, sec.Holds fdIn a b →
    (∃ last, fdIn.texts.getLast? = some last ∧ last.Holds fdIn a b) ∨
      ∃ data ∈ fdIn.datas, data.Holds fdIn a b

end File

/-! ### One turn of the loop -/

section turn

variable {fdIn : File} {noff noff' : Noff} {sec : Scnhdr} {secs rest : List Scnhdr}
  {k : SectionKind} {noffH : NoffHeader}

theorem ofKind_append : ofKind k (secs ++ rest) = ofKind k secs ++ ofKind k rest :=
  List.filter_append secs rest

theorem ofKind_concat_self (h0 : sec.s_size ≠ 0#32) (hk : sec.kind = k) :
    ofKind k (secs ++ [sec]) = ofKind k secs ++ [sec] := by
  simp [ofKind, h0, hk]

theorem ofKind_concat_empty (h0 : sec.s_size = 0#32) :
    ofKind k (secs ++ [sec]) = ofKind k secs := by
  simp [ofKind, h0]

theorem ofKind_concat_of_ne (hk : sec.kind ≠ k) : ofKind k (secs ++ [sec]) = ofKind k secs := by
  simp [ofKind, hk]

theorem ofKind_pos (h : sec ∈ ofKind k secs) : sec.s_size ≠ 0#32 := by
  have hsec := of_decide_eq_true (List.mem_filter.1 h).2
  exact hsec.1

theorem Room.left (h : Room (secs ++ rest)) : Room secs := by
  obtain ⟨hcontents, hspace⟩ := h
  simp only [ofKind_append, total_append] at hcontents hspace
  refine ⟨by omega, fun first hfirst => ?_⟩
  have := hspace first (List.mem_head?_append_of_mem_head? hfirst)
  omega

/-- The segment holds the copy of a section, between the header and the first `n` bytes' end. -/
structure Segment.IsCopy (seg : Segment) (fdIn : File) (sec : Scnhdr) (fdOut : File) (n : ℕ) :
    Prop where
  addr : seg.virtualAddr = sec.addr
  size : seg.size = sec.size
  after : noffHeaderSize ≤ seg.inFileAddr
  before : seg.inFileAddr + sec.size ≤ n
  bytes : ∀ k < sec.size, fdOut.get? (seg.inFileAddr + k) = some (fdIn.byte (sec.place + k))

/-- The segment of the sections of one kind holds the last one. -/
def Segment.LastCopied (seg : Segment) (fdIn : File) (secs : List Scnhdr) (fdOut : File) (n : ℕ) :
    Prop :=
  match secs.getLast? with
  | none => seg.size = 0
  | some sec => seg.IsCopy fdIn sec fdOut n

/-- The uninitialised data: from the start of the first section on, as much as all sections
together. -/
def SpaceFor (seg : Segment) : List Scnhdr → Prop
  | [] => seg.size = 0
  | first :: rest =>
    seg.virtualAddr = first.addr ∧ seg.size = total Scnhdr.size (first :: rest)

/-- What the loop has done with the sections that were not empty: `texts`, `datas` and `bsss`. -/
structure Noff.Copied (fdIn : File) (texts datas bsss : List Scnhdr) (noff : Noff) : Prop where
  place : noff.inNoffFile.toNat = noff.outPosition
  length : noff.outPosition = noffHeaderSize + total Scnhdr.size texts + total Scnhdr.size datas
  code : noff.noffH.code.LastCopied fdIn texts noff.fdOut noff.outPosition
  initData : noff.noffH.initData.LastCopied fdIn datas noff.fdOut noff.outPosition
  uninitData : SpaceFor noff.noffH.uninitData bsss
  -- what has not been rejected
  one : datas.length ≤ 1
  apart : ¬ Meets bsss

/-- What the loop has done with a list of sections. -/
abbrev Noff.CopiedAll (fdIn : File) (secs : List Scnhdr) (noff : Noff) : Prop :=
  noff.Copied fdIn (ofKind .text secs) (ofKind .data secs) (ofKind .bss secs)

/-! ### Copying -/

/-- The contents of a section have been copied. -/
def Noff.append (fdIn : File) (sec : Scnhdr) (noff : Noff) : Noff :=
  { noff with
    inNoffFile := noff.inNoffFile + sec.s_size
    inPosition := sec.place + sec.size
    outPosition := noff.outPosition + sec.size
    fdOut := noff.fdOut.writeAt (fun k => fdIn.byte (sec.place + k)) 0 sec.size
      noff.outPosition }

theorem toInt_eq_toNat_of_nonneg {x : BitVec 32} (h : 0 ≤ x.toInt) : x.toInt = x.toNat := by
  rw [BitVec.toInt_eq_toNat_cond] at h ⊢
  split_ifs at h ⊢ <;> omega

theorem size_ne_zero (h0 : sec.s_size ≠ 0#32) : sec.size ≠ 0 := fun h =>
  h0 (BitVec.eq_of_toNat_eq h)

theorem File.read_eq_ok {f : File} {position : ℕ} {nBytes : ℤ} {buf : ℕ → Byte} :
    f.read position nBytes = .ok buf ↔
      f.readCount position nBytes = nBytes ∧ buf = fun k => f.byte (position + k) := by
  unfold File.read
  split_ifs with h
  · constructor
    · intro heq
      cases heq
    · exact fun heq => absurd heq.1 h
  · exact ⟨fun heq => ⟨not_not.1 h, (Except.ok.inj heq).symm⟩,
      fun heq => congrArg Except.ok heq.2.symm⟩

theorem File.readCount_natCast {f : File} {position n : ℕ} :
    f.readCount position n = n ↔ n ≤ f.length - position := by
  unfold readCount
  rw [if_neg (by omega)]
  omega

/-- `Read` of a section succeeds if and only if its contents are there. -/
theorem Scnhdr.Readable.readCount_iff (h : sec.Readable) (h0 : sec.s_size ≠ 0#32) :
    fdIn.readCount sec.place sec.s_size.toInt = sec.s_size.toInt ↔ fdIn.HasContents sec := by
  unfold File.HasContents
  by_cases hsize : 0 ≤ sec.s_size.toInt
  · have hpos : sec.s_size.toNat ≠ 0 := size_ne_zero h0
    rw [toInt_eq_toNat_of_nonneg hsize, File.readCount_natCast]
    unfold Scnhdr.size
    omega
  · unfold File.readCount
    rw [if_pos (by omega)]
    exact ⟨fun heq => absurd heq.symm h.2, fun hin => absurd hin.1 hsize⟩

theorem Noff.copy_eq_ok (h0 : sec.s_size ≠ 0#32) (hread : sec.Readable) :
    noff.copy fdIn sec = .ok noff' ↔
      fdIn.HasContents sec ∧ noff' = noff.append fdIn sec := by
  have hseek : lseek noff.inPosition sec.s_scnptr = sec.place :=
    if_neg (Int.not_lt.2 hread.1)
  unfold copy
  rw [hseek, ← hread.readCount_iff h0]
  constructor
  · intro h
    obtain ⟨buffer, hbuffer, h⟩ := except_bind_eq_ok.1 h
    obtain ⟨hcount, rfl⟩ := File.read_eq_ok.1 hbuffer
    have hsize := ((hread.readCount_iff h0).1 hcount).1
    refine ⟨hcount, (Except.ok.inj h).symm.trans ?_⟩
    rw [toInt_eq_toNat_of_nonneg hsize]
    rfl
  · rintro ⟨hcount, rfl⟩
    have hsize := ((hread.readCount_iff h0).1 hcount).1
    refine except_bind_eq_ok.2 ⟨_, File.read_eq_ok.2 ⟨hcount, rfl⟩, ?_⟩
    rw [toInt_eq_toNat_of_nonneg hsize]
    rfl

/-- What a turn does, if the section is not rejected. -/
inductive Noff.Loaded (fdIn : File) (noff : Noff) (sec : Scnhdr) : Noff → Prop
  | empty : sec.s_size = 0#32 → Loaded fdIn noff sec noff
  | text : sec.s_size ≠ 0#32 → sec.kind = .text → fdIn.HasContents sec →
      Loaded fdIn noff sec
        ((noff.setCode ⟨sec.addr, noff.inNoffFile.toNat, sec.size⟩).append fdIn sec)
  | data : sec.s_size ≠ 0#32 → sec.kind = .data → noff.noffH.initData.size = 0 →
      fdIn.HasContents sec →
      Loaded fdIn noff sec
        ((noff.setInitData ⟨sec.addr, noff.inNoffFile.toNat, sec.size⟩).append fdIn sec)
  | firstBss : sec.s_size ≠ 0#32 → sec.kind = .bss → noff.noffH.uninitData.size = 0 →
      Loaded fdIn noff sec (noff.setUninitData sec.addr sec.size)
  | laterBss : sec.s_size ≠ 0#32 → sec.kind = .bss → noff.noffH.uninitData.size ≠ 0 →
      sec.addr ≠ (noff.noffH.uninitData.virtualAddr + noff.noffH.uninitData.size) % 2 ^ 32 →
      Loaded fdIn noff sec (noff.setUninitData noff.noffH.uninitData.virtualAddr
        ((noff.noffH.uninitData.size + sec.size) % 2 ^ 32))

/-- The section is copied, and can be. -/
def Scnhdr.Plain (sec : Scnhdr) : Prop :=
  sec.s_size ≠ 0#32 → sec.kind = .text ∨ sec.kind = .data → sec.Readable

theorem Noff.load_eq_ok (hread : sec.Plain) :
    noff.load fdIn sec = .ok noff' ↔ noff.Loaded fdIn sec noff' := by
  constructor
  · intro h
    unfold load at h
    by_cases h0 : sec.s_size = 0#32
    · rw [if_pos h0] at h
      cases h
      exact .empty h0
    · rw [if_neg h0] at h
      cases hk : sec.kind with
      | text =>
        simp only [hk] at h
        obtain ⟨hin, rfl⟩ := (copy_eq_ok h0 (hread h0 (Or.inl hk))).1 h
        exact .text h0 hk hin
      | data =>
        simp only [hk] at h
        split_ifs at h with hd
        obtain ⟨hin, rfl⟩ := (copy_eq_ok h0 (hread h0 (Or.inr hk))).1 h
        exact .data h0 hk (not_not.1 hd) hin
      | bss =>
        simp only [hk] at h
        split_ifs at h with hb hm
        · cases h
          exact .laterBss h0 hk hb hm
        · cases h
          exact .firstBss h0 hk (not_not.1 hb)
      | unknown =>
        simp only [hk] at h
        cases h
  · intro h
    cases h with
    | empty h0 => simp [load, h0, pure, Except.pure]
    | text h0 hk hin =>
      have hcopy := hread h0 (Or.inl hk)
      simp only [load, h0, hk, if_false, (copy_eq_ok h0 hcopy).2 ⟨hin, rfl⟩]
    | data h0 hk hd hin =>
      have hcopy := hread h0 (Or.inr hk)
      simp only [load, h0, hk, hd, if_false, ne_eq, not_true_eq_false,
        (copy_eq_ok h0 hcopy).2 ⟨hin, rfl⟩]
    | firstBss h0 hk hb => simp [load, h0, hk, hb, pure, Except.pure]
    | laterBss h0 hk hb hm =>
      simp only [load, h0, hk, hb, hm, if_false, if_true, ne_eq, not_false_eq_true]
      rfl

theorem Noff.Loaded.hasSection (h : noff.Loaded fdIn sec noff') : fdIn.HasSection sec := by
  cases h with
  | empty h0 => exact Or.inl h0
  | text h0 hk hin => exact Or.inr (Or.inr ⟨Or.inl hk, hin⟩)
  | data h0 hk hsize hin => exact Or.inr (Or.inr ⟨Or.inr hk, hin⟩)
  | firstBss h0 hk => exact Or.inr (Or.inl hk)
  | laterBss h0 hk => exact Or.inr (Or.inl hk)

section copies

variable {seg : Segment} {fdOut : File} {n : ℕ}

/-- A copy stays where it is. -/
theorem Segment.IsCopy.append {sec' : Scnhdr}
    (h : seg.IsCopy fdIn sec' noff.fdOut noff.outPosition) :
    seg.IsCopy fdIn sec' (noff.append fdIn sec).fdOut (noff.append fdIn sec).outPosition where
  addr := h.addr
  size := h.size
  after := h.after
  before := h.before.trans (Nat.le_add_right _ _)
  bytes k hk := by
    have := h.before
    exact File.get?_writeAt_outside _ _ (Or.inl (by omega)) (h.bytes k hk)

theorem Noff.place_append (h : noff.inNoffFile.toNat = noff.outPosition)
    (hle : noff.outPosition + sec.size ≤ INTMAX) :
    (noff.append fdIn sec).inNoffFile.toNat = (noff.append fdIn sec).outPosition := by
  show (noff.inNoffFile + sec.s_size).toNat = noff.outPosition + sec.size
  rw [BitVec.toNat_add, h]
  exact Nat.mod_eq_of_lt (by unfold INTMAX Scnhdr.size at *; omega)

theorem Noff.isCopy_append (h : noffHeaderSize ≤ noff.outPosition) :
    Segment.IsCopy ⟨sec.addr, noff.outPosition, sec.size⟩ fdIn sec
      (noff.append fdIn sec).fdOut (noff.append fdIn sec).outPosition where
  addr := rfl
  size := rfl
  after := h
  before := le_rfl
  bytes k hk := by
    rw [Noff.append, File.get?_writeAt_of_lt _ _ hk, Nat.zero_add]

/-- What keeps every copy keeps the last one. -/
theorem Segment.LastCopied.mono {fdOut' : File} {n' : ℕ} (h : seg.LastCopied fdIn secs fdOut n)
    (hcopy : ∀ sec, seg.IsCopy fdIn sec fdOut n → seg.IsCopy fdIn sec fdOut' n') :
    seg.LastCopied fdIn secs fdOut' n' := by
  unfold LastCopied at h ⊢
  cases hl : secs.getLast? with
  | none =>
    rw [hl] at h
    exact h
  | some sec =>
    rw [hl] at h
    exact hcopy sec h

theorem Segment.LastCopied.append (h : seg.LastCopied fdIn secs noff.fdOut noff.outPosition) :
    seg.LastCopied fdIn secs (noff.append fdIn sec).fdOut (noff.append fdIn sec).outPosition :=
  h.mono fun _ => Segment.IsCopy.append

theorem Segment.lastCopied_concat :
    seg.LastCopied fdIn (secs ++ [sec]) fdOut n ↔ seg.IsCopy fdIn sec fdOut n := by
  unfold LastCopied
  rw [List.getLast?_concat]

/-- No section has been copied if and only if the size is 0. -/
theorem Segment.LastCopied.size_eq (h : seg.LastCopied fdIn secs fdOut n)
    (hpos : ∀ sec ∈ secs, sec.s_size ≠ 0#32) : seg.size = 0 ↔ secs = [] := by
  unfold LastCopied at h
  cases hl : secs.getLast? with
  | none =>
    rw [hl] at h
    exact ⟨fun _ => List.getLast?_eq_none_iff.1 hl, fun _ => h⟩
  | some sec =>
    rw [hl] at h
    have hmem := List.mem_of_getLast? hl
    refine ⟨fun h0 => absurd (h.size.symm.trans h0) (size_ne_zero (hpos sec hmem)), fun h0 => ?_⟩
    rw [h0] at hmem
    exact absurd hmem List.not_mem_nil

end copies

/-! ### Uninitialised data -/

theorem SpaceFor.size_eq {seg : Segment} (h : SpaceFor seg secs)
    (hpos : ∀ sec ∈ secs, sec.s_size ≠ 0#32) : seg.size = 0 ↔ secs = [] := by
  cases secs with
  | nil => exact ⟨fun _ => rfl, fun _ => h⟩
  | cons first rest =>
    have hfirst := size_ne_zero (hpos first List.mem_cons_self)
    rw [h.2, total_cons]
    simp
    omega

/-- The section that comes next meets those before it where the space for them ends. -/
theorem SpaceFor.meets_concat {seg : Segment} (h : SpaceFor seg secs) (hs : secs ≠ []) :
    Meets (secs ++ [sec]) ↔ Meets secs ∨ sec.addr = seg.virtualAddr + seg.size := by
  cases secs with
  | nil => exact absurd rfl hs
  | cons first rest =>
    rw [List.cons_append, Meets, joins_concat, Meets, h.1, h.2, total_cons, Nat.add_assoc]

theorem Meets.append (h : Meets secs) : Meets (secs ++ rest) := by
  cases secs with
  | nil => exact absurd h id
  | cons first rest => exact Joins.append h

theorem SpaceFor.concat {seg : Segment} (h : SpaceFor seg secs) (hs : secs ≠ []) :
    SpaceFor { seg with size := seg.size + sec.size } (secs ++ [sec]) := by
  cases secs with
  | nil => exact absurd rfl hs
  | cons first rest =>
    refine ⟨h.1, ?_⟩
    show seg.size + sec.size = total Scnhdr.size ((first :: rest) ++ [sec])
    rw [h.2, total_concat]

/-- The uninitialised data of earlier sections end at an `int`, also with those of one more. -/
theorem Noff.CopiedAll.bss_le (h : noff.CopiedAll fdIn secs) (hroom : Room (secs ++ [sec]))
    (h0 : sec.s_size ≠ 0#32) (hk : sec.kind = .bss) (hsize : noff.noffH.uninitData.size ≠ 0) :
    ofKind .bss secs ≠ [] ∧
      noff.noffH.uninitData.virtualAddr + noff.noffH.uninitData.size + sec.size ≤ INTMAX := by
  have hne : ofKind .bss secs ≠ [] := fun hnil =>
    hsize ((h.uninitData.size_eq fun sec => ofKind_pos).2 hnil)
  refine ⟨hne, ?_⟩
  have hspace := hroom.space
  have huninit := h.uninitData
  rw [ofKind_concat_self h0 hk, total_concat] at hspace
  cases hbss : ofKind .bss secs with
  | nil => exact absurd hbss hne
  | cons first rest =>
    rw [hbss] at hspace huninit
    have hle := hspace first rfl
    rw [huninit.1, huninit.2]
    omega

/-- What a turn leaves. -/
theorem Noff.CopiedAll.loaded (h : noff.CopiedAll fdIn secs) (hroom : Room (secs ++ [sec]))
    (hl : noff.Loaded fdIn sec noff') : noff'.CopiedAll fdIn (secs ++ [sec]) := by
  unfold CopiedAll
  have hplace := h.place
  have hlength := h.length
  have hcontents := hroom.contents
  cases hl with
  | empty h0 =>
    simp only [ofKind_concat_empty h0]
    exact h
  | text h0 hk hin =>
    rw [ofKind_concat_self h0 hk, ofKind_concat_of_ne (k := .data) (by simp [hk]),
      total_concat] at hcontents
    rw [ofKind_concat_self h0 hk, ofKind_concat_of_ne (k := .data) (by simp [hk]),
      ofKind_concat_of_ne (k := .bss) (by simp [hk])]
    refine { h with
      place := Noff.place_append hplace ?_
      length := ?_
      code := Segment.lastCopied_concat.2 (hplace ▸ Noff.isCopy_append (by omega))
      initData := Segment.LastCopied.append h.initData }
    · show noff.outPosition + sec.size ≤ INTMAX
      omega
    · show noff.outPosition + sec.size = _
      rw [total_concat]
      omega
  | data h0 hk hsize hin =>
    have hnil := (h.initData.size_eq fun sec => ofKind_pos).1 hsize
    rw [ofKind_concat_self h0 hk, ofKind_concat_of_ne (k := .text) (by simp [hk]),
      total_concat] at hcontents
    rw [ofKind_concat_self h0 hk, ofKind_concat_of_ne (k := .text) (by simp [hk]),
      ofKind_concat_of_ne (k := .bss) (by simp [hk])]
    refine { h with
      place := Noff.place_append hplace ?_
      length := ?_
      code := Segment.LastCopied.append h.code
      initData := Segment.lastCopied_concat.2 (hplace ▸ Noff.isCopy_append (by omega))
      one := ?_ }
    · show noff.outPosition + sec.size ≤ INTMAX
      omega
    · show noff.outPosition + sec.size = _
      rw [total_concat]
      omega
    · rw [hnil]
      exact le_rfl
  | firstBss h0 hk hsize =>
    have hnil := (h.uninitData.size_eq fun sec => ofKind_pos).1 hsize
    rw [ofKind_concat_self h0 hk, ofKind_concat_of_ne (k := .text) (by simp [hk]),
      ofKind_concat_of_ne (k := .data) (by simp [hk]), hnil]
    exact { h with uninitData := ⟨rfl, rfl⟩, apart := id }
  | laterBss h0 hk hsize hm =>
    obtain ⟨hne, hspace⟩ := h.bss_le hroom h0 hk hsize
    unfold INTMAX at hspace
    rw [Nat.mod_eq_of_lt (by omega)] at hm ⊢
    rw [ofKind_concat_self h0 hk, ofKind_concat_of_ne (k := .text) (by simp [hk]),
      ofKind_concat_of_ne (k := .data) (by simp [hk])]
    refine { h with
      uninitData := h.uninitData.concat hne
      apart := ?_ }
    rw [h.uninitData.meets_concat hne]
    exact not_or.2 ⟨h.apart, hm⟩

/-- When a section is not rejected. -/
theorem Noff.CopiedAll.exists_loaded (h : noff.CopiedAll fdIn secs) (hroom : Room (secs ++ [sec]))
    (hsec : fdIn.HasSection sec) (hone : (ofKind .data (secs ++ [sec])).length ≤ 1)
    (hapart : ¬ Meets (ofKind .bss (secs ++ [sec]))) : ∃ noff', noff.Loaded fdIn sec noff' := by
  by_cases h0 : sec.s_size = 0#32
  · exact ⟨_, .empty h0⟩
  · rcases hsec with hsec | hk | ⟨hk | hk, hin⟩
    · exact absurd hsec h0
    · by_cases hsize : noff.noffH.uninitData.size = 0
      · exact ⟨_, .firstBss h0 hk hsize⟩
      · obtain ⟨hne, hspace⟩ := h.bss_le hroom h0 hk hsize
        unfold INTMAX at hspace
        rw [ofKind_concat_self h0 hk, h.uninitData.meets_concat hne] at hapart
        refine ⟨_, .laterBss h0 hk hsize ?_⟩
        rw [Nat.mod_eq_of_lt (by omega)]
        exact (not_or.1 hapart).2
    · exact ⟨_, .text h0 hk hin⟩
    · rw [ofKind_concat_self h0 hk, List.length_append, List.length_singleton] at hone
      have hnil : ofKind .data secs = [] := List.eq_nil_of_length_eq_zero (by omega)
      exact ⟨_, .data h0 hk ((h.initData.size_eq fun sec => ofKind_pos).2 hnil) hin⟩

/-! ### The loop -/

/-- The sections of a file that is converted. -/
theorem Noff.hasSection_of_foldlM (hplain : ∀ sec ∈ secs, sec.Plain)
    (hrun : secs.foldlM (Noff.load fdIn) noff = .ok noff') : ∀ sec ∈ secs, fdIn.HasSection sec := by
  induction secs generalizing noff with
  | nil => simp
  | cons sec secs ih =>
    rw [List.foldlM_cons] at hrun
    obtain ⟨noff₁, hload, hrun⟩ := except_bind_eq_ok.1 hrun
    rw [List.forall_mem_cons] at hplain ⊢
    exact ⟨((load_eq_ok hplain.1).1 hload).hasSection, ih hplain.2 hrun⟩

/-- What the loop leaves. -/
theorem Noff.CopiedAll.foldlM (h : noff.CopiedAll fdIn secs) (hplain : ∀ sec ∈ rest, sec.Plain)
    (hroom : Room (secs ++ rest)) (hrun : rest.foldlM (Noff.load fdIn) noff = .ok noff') :
    noff'.CopiedAll fdIn (secs ++ rest) := by
  induction rest generalizing noff secs with
  | nil =>
    cases hrun
    rwa [List.append_nil]
  | cons sec rest ih =>
    rw [List.foldlM_cons] at hrun
    obtain ⟨noff₁, hload, hrun⟩ := except_bind_eq_ok.1 hrun
    rw [List.forall_mem_cons] at hplain
    rw [List.append_cons] at hroom ⊢
    exact ih (h.loaded hroom.left ((load_eq_ok hplain.1).1 hload)) hplain.2 hroom hrun

/-- When the loop comes to its end. -/
theorem Noff.CopiedAll.exists_foldlM (h : noff.CopiedAll fdIn secs)
    (hplain : ∀ sec ∈ rest, sec.Plain) (hroom : Room (secs ++ rest))
    (hsecs : ∀ sec ∈ rest, fdIn.HasSection sec)
    (hone : (ofKind .data (secs ++ rest)).length ≤ 1)
    (hapart : ¬ Meets (ofKind .bss (secs ++ rest))) :
    ∃ noff', rest.foldlM (Noff.load fdIn) noff = .ok noff' := by
  induction rest generalizing noff secs with
  | nil => exact ⟨noff, rfl⟩
  | cons sec rest ih =>
    rw [List.forall_mem_cons] at hplain hsecs
    rw [List.append_cons] at hroom hone hapart
    have hone₁ : (ofKind .data (secs ++ [sec])).length ≤ 1 := by
      rw [ofKind_append, List.length_append] at hone
      omega
    have hapart₁ : ¬ Meets (ofKind .bss (secs ++ [sec])) := fun hm =>
      hapart (ofKind_append ▸ hm.append)
    obtain ⟨noff₁, hload⟩ := h.exists_loaded hroom.left hsecs.1 hone₁ hapart₁
    obtain ⟨noff₂, hrun⟩ := ih (h.loaded hroom.left hload) hplain.2 hroom hsecs.2 hone hapart
    refine ⟨noff₂, ?_⟩
    rw [List.foldlM_cons, (load_eq_ok hplain.1).2 hload]
    exact hrun

/-! ### The program -/

theorem Noff.start_copied (noffH : NoffHeader) (n : ℕ) :
    (Noff.start noffH n).CopiedAll fdIn [] where
  place := rfl
  length := rfl
  code := rfl
  initData := rfl
  uninitData := rfl
  one := Nat.zero_le _
  apart := id

/-- The header is written before the copies. -/
theorem Segment.LastCopied.finish {seg : Segment}
    (h : seg.LastCopied fdIn secs noff.fdOut noff.outPosition) :
    seg.LastCopied fdIn secs noff.finish.fdOut noff.finish.outPosition := by
  refine h.mono fun sec hcopy => { hcopy with bytes := fun k hk => ?_ }
  have := hcopy.after
  exact File.get?_writeAt_outside _ _ (Or.inr (by omega)) (hcopy.bytes k hk)

theorem Noff.CopiedAll.finish (h : noff.CopiedAll fdIn secs) : noff.finish.CopiedAll fdIn secs :=
  { h with
    code := h.code.finish
    initData := h.initData.finish }

theorem require_eq_ok {c : Prop} [Decidable c] {e : CoffError} {u : Unit} :
    require c e = .ok u ↔ c := by
  unfold require
  split_ifs with h
  · exact ⟨fun _ => h, fun _ => rfl⟩
  · constructor
    · intro heq
      cases heq
    · exact fun hc => absurd hc h

/-- The headers are right, and the loop comes to its end. -/
theorem coff2noff_eq_ok : coff2noff noffH fdIn = .ok noff ↔
    fdIn.HasHeaders ∧ ∃ noff',
      fdIn.sections.foldlM (Noff.load fdIn) (Noff.start noffH (fdIn.half 2)) = .ok noff' ∧
        noff = noff'.finish := by
  have hread (position n : ℕ) (buf : ℕ → Byte) : fdIn.read position n = .ok buf ↔
      n ≤ fdIn.length - position ∧ buf = fun k => fdIn.byte (position + k) := by
    rw [File.read_eq_ok, File.readCount_natCast]
  simp only [coff2noff, except_bind_eq_ok, hread, require_eq_ok]
  constructor
  · rintro ⟨_, ⟨h₁, -⟩, _, hmagic, _, ⟨h₂, -⟩, _, homagic, _, ⟨htable, -⟩, noff', hrun, h⟩
    exact ⟨⟨hmagic, homagic, by omega⟩, noff', hrun, (Except.ok.inj h).symm⟩
  · rintro ⟨⟨hmagic, homagic, htable⟩, noff', hrun, rfl⟩
    exact ⟨_, ⟨by omega, rfl⟩, (), hmagic, _, ⟨by omega, rfl⟩, (), homagic, _, ⟨by omega, rfl⟩,
      noff', hrun, rfl⟩

theorem File.IntsFit.plain (h : fdIn.IntsFit) : ∀ sec ∈ fdIn.sections, sec.Plain := by
  intro sec hsec h0 hk
  have hmem (k : SectionKind) (hk : sec.kind = k) : sec ∈ ofKind k fdIn.sections :=
    List.mem_filter.2 ⟨hsec, decide_eq_true ⟨h0, hk⟩⟩
  exact h.readable sec (List.mem_append.2 (hk.imp (hmem .text) (hmem .data)))

/-- What a file that is converted is like, and what becomes of it. -/
theorem coff2noff_copied (hfit : fdIn.IntsFit) (h : coff2noff noffH fdIn = .ok noff) :
    fdIn.IsCoff ∧ noff.CopiedAll fdIn fdIn.sections := by
  obtain ⟨hheaders, noff', hrun, rfl⟩ := coff2noff_eq_ok.1 h
  have hcoff : fdIn.IsCoff := ⟨hheaders, Noff.hasSection_of_foldlM hfit.plain hrun⟩
  have hcopied := (Noff.start_copied noffH _).foldlM hfit.plain (hfit.room hcoff) hrun
  exact ⟨hcoff, hcopied.finish⟩

/-- Which files are converted. -/
theorem exists_coff2noff_iff (hfit : fdIn.IntsFit) :
    (∃ noff, coff2noff noffH fdIn = .ok noff) ↔
      fdIn.IsCoff ∧ fdIn.datas.length ≤ 1 ∧ ¬ Meets fdIn.bsss := by
  constructor
  · rintro ⟨noff, h⟩
    obtain ⟨hcoff, hcopied⟩ := coff2noff_copied hfit h
    exact ⟨hcoff, hcopied.one, hcopied.apart⟩
  · rintro ⟨hcoff, hone, hapart⟩
    obtain ⟨noff', hrun⟩ := (Noff.start_copied noffH (fdIn.half 2)).exists_foldlM
      hfit.plain (hfit.room hcoff) hcoff.sections hone hapart
    exact ⟨_, coff2noff_eq_ok.2 ⟨hcoff.toHasHeaders, noff', hrun, rfl⟩⟩

/-! ### The image -/

/-- A copy holds what the section holds. -/
theorem Segment.IsCopy.holds_iff {seg : Segment} {fdOut : File} {n a : ℕ} {b : Byte}
    (h : seg.IsCopy fdIn sec fdOut n) : seg.Holds fdOut a b ↔ sec.Holds fdIn a b := by
  unfold Segment.Holds Scnhdr.Holds
  rw [h.addr, h.size]
  refine and_congr_right fun hle => and_congr_right fun hlt => ?_
  rw [h.bytes _ (by omega)]
  exact Option.some_inj

theorem Segment.LastCopied.holds_iff {seg : Segment} {fdOut : File} {n a : ℕ} {b : Byte}
    (h : seg.LastCopied fdIn secs fdOut n) :
    seg.Holds fdOut a b ↔ ∃ last, secs.getLast? = some last ∧ last.Holds fdIn a b := by
  unfold LastCopied at h
  cases hl : secs.getLast? with
  | none =>
    rw [hl] at h
    have hsize : seg.size = 0 := h
    constructor
    · rintro ⟨hle, hlt, -⟩
      omega
    · rintro ⟨last, hlast, -⟩
      cases hlast
  | some sec =>
    rw [hl] at h
    rw [Segment.IsCopy.holds_iff h]
    constructor
    · exact fun hsec => ⟨sec, rfl, hsec⟩
    · rintro ⟨last, hlast, hsec⟩
      rwa [Option.some.inj hlast]

/-- The space for the uninitialised data is what they cover if and only if they fill it. -/
theorem SpaceFor.covered_iff {seg : Segment} (h : SpaceFor seg secs)
    (hpos : ∀ sec ∈ secs, sec.s_size ≠ 0#32) :
    covered Scnhdr.addr Scnhdr.size secs =
      Set.Ico seg.virtualAddr (seg.virtualAddr + seg.size) ↔ Tiles secs := by
  cases secs with
  | nil =>
    have hsize : seg.size = 0 := h
    simp [Tiles, hsize]
  | cons first rest =>
    rw [h.1, h.2]
    exact covered_eq_Ico_iff fun sec hsec => Nat.pos_of_ne_zero (size_ne_zero (hpos sec hsec))

theorem mem_getLast?_iff {l : List Scnhdr} (h : l.length ≤ 1) :
    l.getLast? = some sec ↔ sec ∈ l := by
  match l, h with
  | [], _ => simp
  | [x], _ => simp [eq_comm]
  | _ :: _ :: _, h => simp at h

/-- What the image of a file that is converted depends on. -/
theorem imageIn_iff (hfit : fdIn.IntsFit) (h : coff2noff noffH fdIn = .ok noff) :
    fdIn.ImageIn noff ↔ fdIn.LastTextHolds ∧ Tiles fdIn.bsss := by
  obtain ⟨-, hcopied⟩ := coff2noff_copied hfit h
  refine and_congr ?_ (hcopied.uninitData.covered_iff fun sec => ofKind_pos)
  simp only [hcopied.code.holds_iff, hcopied.initData.holds_iff, mem_getLast?_iff hcopied.one]
  constructor
  · exact fun himage sec hsec => himage sec (List.mem_append_left _ hsec)
  · intro hlast sec hsec a b hb
    rcases List.mem_append.1 hsec with hsec | hsec
    · exact hlast sec hsec a b hb
    · exact Or.inr ⟨sec, hsec, hb⟩

end turn

/-- When the image of a COFF file is preserved: it has several data sections, and is rejected; or
some section of uninitialised data starts where those before it, put end to end, end, and they are
not contiguous or there are several sections of code; or there is none such, the last section of
code holds the others, and those of uninitialised data fill a range, in some order. -/
def File.Convertible (fdIn : File) : Prop :=
  2 ≤ fdIn.datas.length ∨
    (Meets fdIn.bsss ∧ (¬ Contiguous fdIn.bsss ∨ 2 ≤ fdIn.texts.length)) ∨
    (¬ Meets fdIn.bsss ∧ fdIn.LastTextHolds ∧ Tiles fdIn.bsss)

/-- The bytes of a section header with a name, `s_paddr`, `s_size` and `s_scnptr`; the other fields
are 0. -/
def sectionBytes (s_name s_paddr s_size s_scnptr : List Byte) : List Byte :=
  s_name ++ List.replicate (8 - s_name.length) 0 ++ s_paddr ++ [0, 0, 0, 0] ++ s_size ++ s_scnptr ++
    List.replicate 16 0

/-- The bytes of a COFF file with these section headers and contents. -/
def coffBytes (f_nscns : Byte) (contents : List Byte) : List Byte :=
  [0x62, 0x01, f_nscns, 0] ++ List.replicate 16 0 ++ [0x07, 0x01] ++ List.replicate 54 0 ++ contents

/-- A COFF file that has 16 bytes of `.bss` from address 16 on. -/
def oneBss : File := File.ofList <| coffBytes 1 <|
  sectionBytes [0x2e, 0x62, 0x73, 0x73] [16, 0, 0, 0] [16, 0, 0, 0] [0, 0, 0, 0]

/-- The stack holds zeros where `noffH` is. -/
def zeroStack : NoffHeader := ⟨0, ⟨0, 0, 0⟩, ⟨0, 0, 0⟩, ⟨0, 0, 0⟩⟩

/-- A file with uninitialised data only. -/
theorem intsFit_of_bss {fdIn : File} (htexts : fdIn.texts = []) (hdatas : fdIn.datas = [])
    (hspace : ∀ first ∈ fdIn.bsss.head?, first.addr + total Scnhdr.size fdIn.bsss ≤ INTMAX) :
    fdIn.IntsFit := by
  refine ⟨fun sec hsec => ?_, fun _ => ⟨?_, hspace⟩⟩
  · rw [htexts, hdatas] at hsec
    cases hsec
  · show noffHeaderSize + total Scnhdr.size fdIn.texts + total Scnhdr.size fdIn.datas ≤ INTMAX
    rw [htexts, hdatas]
    decide

/-- A COFF file that has 16 bytes of `.bss` from address 16 on, and 16 bytes of `.sbss` from address
32 on. -/
def bssThenSbss : File := File.ofList <| coffBytes 2 <|
  sectionBytes [0x2e, 0x62, 0x73, 0x73] [16, 0, 0, 0] [16, 0, 0, 0] [0, 0, 0, 0] ++
    sectionBytes [0x2e, 0x73, 0x62, 0x73, 0x73] [32, 0, 0, 0] [16, 0, 0, 0] [0, 0, 0, 0]

theorem bssThenSbss_sections : bssThenSbss.sections =
    [⟨".bss".toList, 16, 16, 0⟩, ⟨".sbss".toList, 32, 16, 0⟩] := by
  decide +kernel

/-- A COFF file with a `.text` of -1 bytes and the byte 7 of `.data`, for address 64. -/
def unreadText : File := File.ofList <| coffBytes 2 <|
  sectionBytes [0x2e, 0x74, 0x65, 0x78, 0x74] [0, 0, 0, 0] [255, 255, 255, 255] [156, 0, 0, 0] ++
    sectionBytes [0x2e, 0x64, 0x61, 0x74, 0x61] [64, 0, 0, 0] [1, 0, 0, 0] [156, 0, 0, 0] ++ [7]

/-- **A size of -1 is taken for a success.**  Nothing of the `.text` is copied, and the `.data` that
come next are recorded one byte before the place where they are. -/
theorem negative_size_misplaces : ∃ noff,
    coff2noff zeroStack unreadText = .ok noff ∧
      noff.noffH.initData.inFileAddr = 39 ∧ noff.fdOut.get? 40 = some 7 ∧
      ¬ unreadText.ImageIn noff := by
  obtain ⟨noff, hnoff, hcode, hdata, hlength, hbefore, hat⟩ := Fallible.exists_ok
    (coff2noff zeroStack unreadText)
    (fun noff => noff.noffH.code = ⟨0, 40, 2 ^ 32 - 1⟩ ∧ noff.noffH.initData = ⟨64, 39, 1⟩ ∧
      noff.fdOut.length = 41 ∧ noff.fdOut.get? 39 = some 0 ∧ noff.fdOut.get? 40 = some 7)
    (by decide +kernel)
  refine ⟨noff, hnoff, by rw [hdata], hat, fun himage => ?_⟩
  have hdatas : unreadText.datas = [⟨".data".toList, 64, 1, 156⟩] := by decide +kernel
  have hsec : Scnhdr.Holds unreadText ⟨".data".toList, 64, 1, 156⟩ 64 7 :=
    ⟨by decide, by decide, by decide +kernel⟩
  rcases himage.1 _ (by rw [hdatas]; simp) 64 7 hsec with ⟨-, -, h⟩ | ⟨-, -, h⟩
  · -- the code would be far behind the end of the file
    rw [hcode, File.get?, if_neg (by rw [hlength]; decide)] at h
    cases h
  · rw [hdata] at h
    exact absurd (hbefore.symm.trans h) (by decide)

/-! ### The header of the NOFF file -/

/-- The words of the header are where the loader looks for them. -/
theorem word_finish (noff : Noff) {i w : ℕ} (hw : noff.noffH.words[i]? = some w)
    (hfit : w < 2 ^ 32) : noff.finish.fdOut.word (4 * i) = w := by
  have hi : i < 10 := (List.getElem?_eq_some_iff.1 hw).1
  have hbyte (j : ℕ) (hj : j < 4) :
      ((noff.finish.fdOut.get? (4 * i + j)).getD 0).toNat = w / 256 ^ j % 256 := by
    have hget : noff.finish.fdOut.get? (0 + (4 * i + j)) =
        some (noff.noffH.bytes (0 + (4 * i + j))) :=
      File.get?_writeAt_of_lt _ _ (show 4 * i + j < 40 by omega)
    rw [Nat.zero_add] at hget
    rw [hget, Option.getD_some, NoffHeader.bytes, show (4 * i + j) / 4 = i by omega,
      show (4 * i + j) % 4 = j by omega, List.getD_eq_getElem?_getD, hw, BitVec.toNat_ofNat]
    rfl
  have h0 := hbyte 0 (by omega)
  rw [Nat.add_zero] at h0
  rw [File.word, h0, hbyte 1 (by omega), hbyte 2 (by omega), hbyte 3 (by omega)]
  omega

/-- **The loader reads the header that was written**, if its numbers fit. -/
theorem noffHeader_coff2noff {noffH : NoffHeader} {fdIn : File} {noff : Noff}
    (h : coff2noff noffH fdIn = .ok noff) (hfit : ∀ w ∈ noff.noffH.words, w < 2 ^ 32) :
    noff.fdOut.noffHeader = noff.noffH := by
  obtain ⟨-, noff', -, rfl⟩ := coff2noff_eq_ok.1 h
  have hword (i w : ℕ) (hw : noff'.noffH.words[i]? = some w) :
      noff'.finish.fdOut.word (4 * i) = w :=
    word_finish noff' hw (hfit w (List.mem_of_getElem? hw))
  have hsegment (i : ℕ) (seg : Segment) (h₁ : noff'.noffH.words[i]? = some seg.virtualAddr)
      (h₂ : noff'.noffH.words[i + 1]? = some seg.inFileAddr)
      (h₃ : noff'.noffH.words[i + 2]? = some seg.size) :
      noff'.finish.fdOut.segment (4 * i) = seg := by
    rw [File.segment, show 4 * i + 4 = 4 * (i + 1) by omega, show 4 * i + 8 = 4 * (i + 2) by omega,
      hword _ _ h₁, hword _ _ h₂, hword _ _ h₃]
  have hmagic := hword 0 _ rfl
  have hcode := hsegment 1 noff'.noffH.code rfl rfl rfl
  have hdata := hsegment 4 noff'.noffH.initData rfl rfl rfl
  have hbss := hsegment 7 noff'.noffH.uninitData rfl rfl rfl
  rw [File.noffHeader]
  rw [Nat.mul_zero] at hmagic
  rw [hmagic, hcode, hdata, hbss]
  rfl

end Nachos
