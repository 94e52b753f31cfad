import Nachos.Filesys.OpenFile

/-!
# `filesys/directory.cc`

A directory is a table of entries.  `FetchFrom` and `WriteBack` move the table as a block of memory,
so the model keeps the block: an entry has 20 bytes, `inUse` at 0, `sector` at 4 and `name` at 8.
A name is a C string, memory from a pointer on.

The lemmas say what `Add` and `Remove` do to `inUse`, `sector` and to what `FindIndex` compares.
-/

namespace Nachos

open ByteMemory Function Fallible

/-! ### C strings -/

/-- `strncmp`. -/
def strncmp (a b : Mem) : ℕ → ℤ
  | 0 => 0
  | n + 1 =>
    if a 0 ≠ b 0 then (a 0).toNat - (b 0).toNat
    else if a 0 = 0 then 0
    else strncmp (fun k => a (k + 1)) (fun k => b (k + 1)) n

/-- The bytes that `strncpy` stores: the string, and then zeros. -/
def paddedString (src : Mem) (k : ℕ) : Byte := if ∃ j < k, src j = 0 then 0 else src k

/-- `strncpy`, to memory at an offset. -/
def strncpy (dst : Mem) (offset : ℕ) (src : Mem) (n : ℕ) : Mem :=
  copy (paddedString src) n dst offset

theorem strncmp_congr {a a' b : Mem} {n : ℕ} (h : ∀ k < n, a k = a' k) :
    strncmp a b n = strncmp a' b n := by
  induction n generalizing a a' b with
  | zero => rfl
  | succ n ih =>
    unfold strncmp
    rw [h 0 (by omega), ih fun k hk => h (k + 1) (by omega)]

theorem paddedString_succ {src : Mem} (h : src 0 ≠ 0) (k : ℕ) :
    paddedString src (k + 1) = paddedString (fun k => src (k + 1)) k := by
  unfold paddedString
  refine if_congr ⟨?_, ?_⟩ rfl rfl
  · rintro ⟨j, hj, h0⟩
    obtain ⟨j, rfl⟩ := Nat.exists_eq_succ_of_ne_zero (n := j) (by rintro rfl; exact h h0)
    exact ⟨j, by omega, h0⟩
  · rintro ⟨j, hj, h0⟩
    exact ⟨j + 1, by omega, h0⟩

/-- A string compares equal to its copy. -/
theorem strncmp_paddedString (src : Mem) (n : ℕ) : strncmp (paddedString src) src n = 0 := by
  induction n generalizing src with
  | zero => rfl
  | succ n ih =>
    have h0 : paddedString src 0 = src 0 := if_neg (by simp)
    unfold strncmp
    rw [h0, if_neg (by simp)]
    split_ifs with hz
    · rfl
    · rw [strncmp_congr fun k _ => paddedString_succ hz k]
      exact ih _

/-! ### The directory -/

/-- `FileNameMaxLen`. -/
abbrev FileNameMaxLen : ℕ := 9

/-- `sizeof(DirectoryEntry)`. -/
abbrev EntrySize : ℕ := 20

/-- `class Directory`: the block of memory that `table` points to. -/
structure Directory (tableSize : ℕ) where
  table : Mem

variable {i : ℕ} {file : OpenFile}

namespace Directory

variable {n : ℕ}

/-- `table[i].inUse`. -/
def inUse (dir : Directory n) (i : ℕ) : Bool := dir.table (EntrySize * i) != 0

/-- `table[i].sector`. -/
def sector (dir : Directory n) (i : ℕ) : BitVec 32 := word dir.table (EntrySize * i + 4)

/-- `table[i].name`. -/
def name (dir : Directory n) (i : ℕ) : Mem := fun k => dir.table (EntrySize * i + 8 + k)

/-- `table[i].inUse = value`. -/
def setInUse (dir : Directory n) (i : ℕ) (value : Bool) : Directory n :=
  ⟨update dir.table (EntrySize * i) (if value then 1 else 0)⟩

/-- `strncpy(table[i].name, name, FileNameMaxLen)`. -/
def setName (dir : Directory n) (i : ℕ) (name : Mem) : Directory n :=
  ⟨strncpy dir.table (EntrySize * i + 8) name FileNameMaxLen⟩

/-- `table[i].sector = sector`. -/
def setSector (dir : Directory n) (i : ℕ) (sector : BitVec 32) : Directory n :=
  ⟨copy (ofWords fun _ => sector) 4 dir.table (EntrySize * i + 4)⟩

/-- `Directory::Directory`, over memory that `new` has returned. -/
def new (block : Mem) : Directory n :=
  (List.range n).foldl (fun dir i => dir.setInUse i false) ⟨block⟩

/-- `Directory::FetchFrom`. -/
def fetchFrom (dir : Directory n) (file : OpenFile) : Fs (Directory n) := do
  let p ← file.readAt dir.table 0 (n * EntrySize : ℕ) (0 : ℕ)
  return ⟨p.2⟩

/-- `Directory::WriteBack`. -/
def writeBack (dir : Directory n) (file : OpenFile) : Fs Unit := do
  let _ ← file.writeAt dir.table (n * EntrySize : ℕ) (0 : ℕ)
  return ()

/-- The test in the loop of `FindIndex`. -/
def isEntry (dir : Directory n) (name : Mem) (i : ℕ) : Bool :=
  dir.inUse i && decide (strncmp (dir.name i) name FileNameMaxLen = 0)

/-- `Directory::FindIndex`; `none` is the `-1` of the source. -/
def findIndex (dir : Directory n) (name : Mem) : Option ℕ := (List.range n).find? (dir.isEntry name)

/-- `Directory::Find`. -/
def find (dir : Directory n) (name : Mem) : ℤ :=
  match dir.findIndex name with
  | some i => (dir.sector i).toInt
  | none => -1

/-- The first entry that is not in use. -/
def freeIndex (dir : Directory n) : Option ℕ := (List.range n).find? fun i => !dir.inUse i

/-- The entry that `Add` makes. -/
def enter (dir : Directory n) (i : ℕ) (name : Mem) (newSector : BitVec 32) : Directory n :=
  ((dir.setInUse i true).setName i name).setSector i newSector

/-- `Directory::Add`: the result, and the directory as it is left. -/
def add (dir : Directory n) (name : Mem) (newSector : BitVec 32) : Bool × Directory n :=
  match dir.findIndex name with
  | some _ => (false, dir)
  | none =>
    match dir.freeIndex with
    | some i => (true, dir.enter i name newSector)
    | none => (false, dir)

/-- `Directory::Remove`: the result, and the directory as it is left. -/
def remove (dir : Directory n) (name : Mem) : Bool × Directory n :=
  match dir.findIndex name with
  | some i => (true, dir.setInUse i false)
  | none => (false, dir)

/-! ### What the operations do to the entries -/

variable {dir : Directory n}

theorem inUse_setInUse (i j : ℕ) (value : Bool) :
    (dir.setInUse i value).inUse j = if j = i then value else dir.inUse j := by
  simp only [inUse, setInUse]
  by_cases hij : j = i
  · rw [if_pos hij, hij, update_self]
    cases value <;> rfl
  · rw [if_neg hij, update_of_ne (by unfold EntrySize; omega)]

theorem sector_setInUse (i j : ℕ) (value : Bool) : (dir.setInUse i value).sector j = dir.sector j :=
  word_congr fun k hk => update_of_ne (by unfold EntrySize; omega) _ _

variable {k : ℕ}

theorem name_setInUse (i j : ℕ) (value : Bool) (hk : k < FileNameMaxLen) :
    (dir.setInUse i value).name j k = dir.name j k :=
  update_of_ne (by unfold EntrySize FileNameMaxLen at *; omega) _ _

theorem inUse_setName (i j : ℕ) (name : Mem) : (dir.setName i name).inUse j = dir.inUse j := by
  simp only [inUse, setName, strncpy]
  rw [copy_of_not_mem (by unfold EntrySize FileNameMaxLen at *; omega)]

theorem sector_setName (i j : ℕ) (name : Mem) : (dir.setName i name).sector j = dir.sector j :=
  word_congr fun k hk =>
    copy_of_not_mem (by unfold EntrySize FileNameMaxLen at *; omega)

theorem name_setName (i j : ℕ) (name : Mem) (hk : k < FileNameMaxLen) :
    (dir.setName i name).name j k = if j = i then paddedString name k else dir.name j k := by
  simp only [Directory.name, setName, strncpy]
  by_cases hij : j = i
  · rw [if_pos hij, hij, copy_of_mem (by omega) (by omega), Nat.add_sub_cancel_left]
  · rw [if_neg hij, copy_of_not_mem (by unfold EntrySize FileNameMaxLen at *; omega)]

theorem inUse_setSector (i j : ℕ) (x : BitVec 32) : (dir.setSector i x).inUse j = dir.inUse j := by
  simp only [inUse, setSector]
  rw [copy_of_not_mem (by unfold EntrySize; omega)]

theorem sector_setSector (i j : ℕ) (x : BitVec 32) :
    (dir.setSector i x).sector j = if j = i then x else dir.sector j := by
  simp only [sector, setSector]
  by_cases hij : j = i
  · rw [if_pos hij, hij]
    refine Eq.trans (word_congr fun k hk => ?_) (word_ofWords (fun _ => x) 0)
    rw [copy_of_mem (by omega) (by omega), Nat.add_sub_cancel_left, Nat.mul_zero,
      Nat.zero_add]
  · rw [if_neg hij]
    refine word_congr fun k hk => ?_
    exact copy_of_not_mem (by unfold EntrySize; omega)

theorem name_setSector (i j : ℕ) (x : BitVec 32) (hk : k < FileNameMaxLen) :
    (dir.setSector i x).name j k = dir.name j k :=
  copy_of_not_mem (by unfold EntrySize FileNameMaxLen at *; omega)

theorem inUse_enter (i j : ℕ) (name : Mem) (x : BitVec 32) :
    (dir.enter i name x).inUse j = if j = i then true else dir.inUse j := by
  rw [enter, inUse_setSector, inUse_setName, inUse_setInUse]

theorem sector_enter (i j : ℕ) (name : Mem) (x : BitVec 32) :
    (dir.enter i name x).sector j = if j = i then x else dir.sector j := by
  rw [enter, sector_setSector, sector_setName, sector_setInUse]

theorem name_enter (i j : ℕ) (name : Mem) (x : BitVec 32) (hk : k < FileNameMaxLen) :
    (dir.enter i name x).name j k = if j = i then paddedString name k else dir.name j k := by
  rw [enter, name_setSector _ _ _ hk, name_setName _ _ _ hk, name_setInUse _ _ _ hk]

theorem isEntry_enter {j : ℕ} (hj : j ≠ i) (name name' : Mem) (x : BitVec 32) :
    (dir.enter i name x).isEntry name' j = dir.isEntry name' j := by
  have hname : strncmp ((dir.enter i name x).name j) name' FileNameMaxLen =
      strncmp (dir.name j) name' FileNameMaxLen := by
    refine strncmp_congr fun k hk => ?_
    rw [name_enter _ _ _ _ hk, if_neg hj]
  rw [isEntry, inUse_enter, if_neg hj, hname]
  rfl

theorem isEntry_enter_self (i : ℕ) (name : Mem) (x : BitVec 32) :
    (dir.enter i name x).isEntry name i = true := by
  have hname : strncmp ((dir.enter i name x).name i) name FileNameMaxLen =
      strncmp (paddedString name) name FileNameMaxLen := by
    refine strncmp_congr fun k hk => ?_
    rw [name_enter _ _ _ _ hk, if_pos rfl]
  rw [isEntry, inUse_enter, if_pos rfl, hname, strncmp_paddedString]
  rfl

theorem findIndex_some {name : Mem} (h : dir.findIndex name = some i) :
    i < n ∧ dir.inUse i = true := by
  have hmem := List.mem_of_find?_eq_some h
  have hentry := List.find?_some h
  unfold isEntry at hentry
  exact ⟨List.mem_range.1 hmem, (Bool.and_eq_true_iff.1 hentry).1⟩

theorem freeIndex_some (h : dir.freeIndex = some i) : i < n ∧ dir.inUse i = false := by
  have hmem := List.mem_of_find?_eq_some h
  have hfree := List.find?_some h
  exact ⟨List.mem_range.1 hmem, by simpa using hfree⟩

theorem findIndex_eq_none_iff {name : Mem} :
    dir.findIndex name = none ↔
      ∀ i < n, dir.inUse i = true → strncmp (dir.name i) name FileNameMaxLen ≠ 0 := by
  unfold findIndex
  rw [List.find?_eq_none]
  constructor
  · intro h i hi hu h0
    exact h i (List.mem_range.2 hi) (by simp [isEntry, hu, h0])
  · intro h i hi he
    simp only [isEntry, Bool.and_eq_true, decide_eq_true_eq] at he
    exact h i (List.mem_range.1 hi) he.1 he.2

theorem freeIndex_ne_none_iff : dir.freeIndex ≠ none ↔ ∃ i < n, dir.inUse i = false := by
  unfold freeIndex
  rw [Ne, List.find?_eq_none]
  simp

/-- A name that was not in the directory is found where it has been entered. -/
theorem findIndex_enter {name : Mem} (hn : dir.findIndex name = none) (hi : i < n) (x : BitVec 32) :
    (dir.enter i name x).findIndex name = some i := by
  have hnone := List.find?_eq_none.1 hn
  refine List.find?_eq_some_iff_getElem.2 ⟨isEntry_enter_self i name x, i, by simpa using hi,
    List.getElem_range _, fun j hj => ?_⟩
  rw [List.getElem_range, isEntry_enter (Nat.ne_of_lt hj)]
  have := hnone j (List.mem_range.2 (by omega))
  simpa using this

theorem inUse_new (block : Mem) (hi : i < n) : (new block : Directory n).inUse i = false := by
  -- an entry that has been cleared stays clear
  have key : ∀ (l : List ℕ) (dir : Directory n), i ∈ l ∨ dir.inUse i = false →
      (l.foldl (fun dir j => dir.setInUse j false) dir).inUse i = false := by
    intro l
    induction l with
    | nil => simp
    | cons j l ih =>
      intro dir h
      refine ih _ ?_
      rw [inUse_setInUse]
      by_cases hij : i = j
      · exact Or.inr (if_pos hij)
      · rw [if_neg hij]
        exact h.imp_left fun hm => (List.mem_cons.1 hm).resolve_left hij
  exact key _ _ (Or.inl (List.mem_range.2 hi))

/-! ### Directories with the same table -/

/-- The tables have the same bytes. -/
def Agree (dir dir' : Directory n) : Prop := ∀ k < n * EntrySize, dir.table k = dir'.table k

variable {dir' : Directory n}

theorem Agree.inUse (h : dir.Agree dir') (hi : i < n) : dir.inUse i = dir'.inUse i := by
  unfold Directory.inUse
  rw [h _ (by unfold EntrySize; omega)]

theorem Agree.sector (h : dir.Agree dir') (hi : i < n) : dir.sector i = dir'.sector i :=
  word_congr fun k hk => h _ (by unfold EntrySize; omega)

theorem Agree.name (h : dir.Agree dir') (hi : i < n) (hk : k < FileNameMaxLen) :
    dir.name i k = dir'.name i k :=
  h _ (by unfold EntrySize FileNameMaxLen at *; omega)

theorem Agree.isEntry (h : dir.Agree dir') (hi : i < n) (name : Mem) :
    dir.isEntry name i = dir'.isEntry name i := by
  rw [Directory.isEntry, h.inUse hi, strncmp_congr fun k hk => h.name hi hk]
  rfl

theorem Agree.findIndex (h : dir.Agree dir') (name : Mem) :
    dir.findIndex name = dir'.findIndex name :=
  List.find?_congr fun _ hi => h.isEntry (List.mem_range.1 hi) name

theorem Agree.freeIndex (h : dir.Agree dir') : dir.freeIndex = dir'.freeIndex :=
  List.find?_congr fun _ hi => by rw [h.inUse (List.mem_range.1 hi)]

theorem Agree.setInUse (h : dir.Agree dir') (i : ℕ) (value : Bool) :
    (dir.setInUse i value).Agree (dir'.setInUse i value) := by
  intro k hk
  simp only [Directory.setInUse, update_apply, h k hk]

theorem Agree.enter (h : dir.Agree dir') (i : ℕ) (name : Mem) (x : BitVec 32) :
    (dir.enter i name x).Agree (dir'.enter i name x) := by
  intro k hk
  simp only [Directory.enter, setSector, setName, strncpy, copy,
    (h.setInUse i true) k hk]

theorem Agree.trans {dir'' : Directory n} (h : dir.Agree dir') (h' : dir'.Agree dir'') :
    dir.Agree dir'' := fun k hk => (h k hk).trans (h' k hk)

/-! ### Directories on the disk -/

/-- `FetchFrom` brings the bytes of the file into the table. -/
theorem fetchFrom_run (dir : Directory n) (h : file.hdr.Covers)
    (hlen : file.hdr.length = n * EntrySize) (s : FsState) :
    ∃ dir' heap, dir.fetchFrom file s = .ok (dir', { s with heap := heap }) ∧
      dir'.Agree ⟨fileByte s.disk file.hdr⟩ := by
  obtain ⟨table, heap, hread, hbytes⟩ := OpenFile.readWhole_run h hlen.ge dir.table s
  refine ⟨⟨table⟩, heap, ?_, hbytes⟩
  unfold fetchFrom
  rw [bind_run hread]
  rfl

/-- `WriteBack` brings the table into the file, and changes no other sector. -/
theorem writeBack_run (dir : Directory n) (h : file.hdr.Covers) (hnd : file.hdr.sectors.Nodup)
    (hlen : file.hdr.length = n * EntrySize) (s : FsState) :
    ∃ d heap, dir.writeBack file s = .ok ((), ⟨d, heap⟩) ∧
      (⟨fileByte d file.hdr⟩ : Directory n).Agree dir ∧
      ChangesOnly file.hdr.sectors s.disk d := by
  obtain ⟨d, heap, hwrite, hbytes, hframe⟩ := OpenFile.writeWhole_run h hnd hlen.ge dir.table s
  refine ⟨d, heap, ?_, hbytes, hframe⟩
  unfold writeBack
  rw [bind_run hwrite]
  rfl

end Directory

/-! ### The free map on the disk -/

namespace BitMap

variable {n : ℕ} {b b' : BitMap n}

/-- The bitmap in memory. -/
def ofBytes (data : Mem) : BitMap n := ⟨fun j => word data (4 * j)⟩

/-- `BitMap::FetchFrom`. -/
def fetchFrom (b : BitMap n) (file : OpenFile) : Fs (BitMap n) := do
  let p ← file.readAt (ofWords b.map) 0 (4 * b.numWords : ℕ) (0 : ℕ)
  return ofBytes p.2

/-- `BitMap::WriteBack`. -/
def writeBack (b : BitMap n) (file : OpenFile) : Fs Unit := do
  let _ ← file.writeAt (ofWords b.map) (4 * b.numWords : ℕ) (0 : ℕ)
  return ()

theorem isSet_congr {data data' : Mem} (hi : i < n)
    (h : ∀ k < 4 * divRoundUp n BitsInWord, data k = data' k) :
    (ofBytes data : BitMap n).isSet i = (ofBytes data' : BitMap n).isSet i := by
  have hword : word data (4 * (i / BitsInWord)) =
      word data' (4 * (i / BitsInWord)) := by
    refine word_congr fun k hk => h _ ?_
    unfold divRoundUp BitsInWord
    split_ifs <;> omega
  simp only [isSet, ofBytes, hword]

theorem isSet_ofWords (i : ℕ) :
    (ofBytes (ofWords b.map) : BitMap n).isSet i = b.isSet i := by
  simp only [isSet, ofBytes, word_ofWords]

/-- `FetchFrom` brings the bits of the file into the map. -/
theorem fetchFrom_run (b : BitMap n) (h : file.hdr.Covers)
    (hlen : 4 * divRoundUp n BitsInWord ≤ file.hdr.length) (s : FsState) :
    ∃ b' heap, b.fetchFrom file s = .ok (b', { s with heap := heap }) ∧
      ∀ i < n, b'.isSet i = (ofBytes (fileByte s.disk file.hdr) : BitMap n).isSet i := by
  obtain ⟨data, heap, hread, hbytes⟩ := OpenFile.readWhole_run h hlen (ofWords b.map) s
  refine ⟨ofBytes data, heap, ?_, fun i hi => isSet_congr hi hbytes⟩
  unfold fetchFrom
  rw [numWords, bind_run hread]
  rfl

/-- `WriteBack` brings the bits of the map into the file, and changes no other sector. -/
theorem writeBack_run (b : BitMap n) (h : file.hdr.Covers) (hnd : file.hdr.sectors.Nodup)
    (hlen : 4 * divRoundUp n BitsInWord ≤ file.hdr.length) (s : FsState) :
    ∃ d heap, b.writeBack file s = .ok ((), ⟨d, heap⟩) ∧
      (∀ i < n, (ofBytes (fileByte d file.hdr) : BitMap n).isSet i = b.isSet i) ∧
      ChangesOnly file.hdr.sectors s.disk d := by
  obtain ⟨d, heap, hwrite, hbytes, hframe⟩ :=
    OpenFile.writeWhole_run h hnd hlen (ofWords b.map) s
  refine ⟨d, heap, ?_, fun i hi => ?_, hframe⟩
  · unfold writeBack
    rw [numWords, bind_run hwrite]
    rfl
  · rw [isSet_congr hi hbytes, isSet_ofWords]

end BitMap

end Nachos
