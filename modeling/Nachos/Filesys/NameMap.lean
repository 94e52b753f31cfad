import Nachos.Filesys.Directory
import Nachos.Lib.SlotTable
import Nachos.Lib.Transition

/-!
# The directory as a finite map

The names count up to `FileNameMaxLen` characters.  A directory is a table of slots with these as
keys, and `Add` and `Remove` insert and erase.

* `strncmp_eq_zero_iff`: what `strncmp` compares.
* `DirStep`: the operations on a directory, and on the file with a copy of it; the log records the
  entries made and deleted.
* `finite_map`: after every run the directory holds what the log says.
-/

namespace Nachos

open ByteMemory (Mem)
open Transition Function Fallible SlotTable

/-! ### Names -/

/-- The first `n` characters of a C string, or all of it. -/
def characters (name : Mem) (n : ℕ) : List Byte := ((List.range n).map name).takeWhile (· ≠ 0)

/-- The part of a name that the directory knows. -/
abbrev truncated (name : Mem) : List Byte := characters name FileNameMaxLen

theorem characters_succ (name : Mem) (n : ℕ) :
    characters name (n + 1) =
      if name 0 = 0 then [] else name 0 :: characters (fun k => name (k + 1)) n := by
  unfold characters
  rw [List.range_succ_eq_map, List.map_cons, List.map_map, List.takeWhile_cons]
  by_cases h : name 0 = 0
  · rw [if_pos h, if_neg (by simp [h])]
  · rw [if_neg h, if_pos (decide_eq_true h)]
    rfl

/-- `strncmp` finds no difference iff there is none in the first `n` characters. -/
theorem strncmp_eq_zero_iff (a b : Mem) (n : ℕ) :
    strncmp a b n = 0 ↔ characters a n = characters b n := by
  induction n generalizing a b with
  | zero => exact iff_of_true rfl rfl
  | succ n ih =>
    rw [characters_succ, characters_succ]
    unfold strncmp
    by_cases hab : a 0 = b 0
    · rw [if_neg (not_not.2 hab), ← hab]
      by_cases h0 : a 0 = 0
      · rw [if_pos h0, if_pos h0, if_pos h0]
        exact iff_of_true rfl rfl
      · rw [if_neg h0, if_neg h0, if_neg h0, ih, List.cons_inj_right]
    · rw [if_pos hab]
      have hne : ((a 0).toNat : ℤ) - (b 0).toNat ≠ 0 := by
        have := mt BitVec.eq_of_toNat_eq hab
        omega
      refine iff_of_false hne fun h => ?_
      by_cases ha : a 0 = 0
      · rw [if_pos ha, if_neg fun hb => hab (ha.trans hb.symm)] at h
        cases h
      · rw [if_neg ha] at h
        by_cases hb : b 0 = 0
        · rw [if_pos hb] at h
          cases h
        · rw [if_neg hb] at h
          exact hab (List.cons.inj h).1

theorem truncated_paddedString (name : Mem) : truncated (paddedString name) = truncated name :=
  (strncmp_eq_zero_iff _ _ _).1 (strncmp_paddedString name FileNameMaxLen)

theorem truncated_congr {a b : Mem} (h : ∀ k < FileNameMaxLen, a k = b k) :
    truncated a = truncated b := by
  unfold truncated characters
  rw [List.map_congr_left fun k hk => h k (List.mem_range.1 hk)]

namespace Directory

variable {n : ℕ} {dir dir' : Directory n} {name : Mem}

/-! ### The table of slots -/

/-- The directory as a table of slots. -/
def slots (dir : Directory n) (i : Fin n) : Option (List Byte × BitVec 32) :=
  if dir.inUse i then some (truncated (dir.name i), dir.sector i) else none

theorem slots_eq_some {i : Fin n} {key : List Byte} {x : BitVec 32} :
    dir.slots i = some (key, x) ↔
      dir.inUse i = true ∧ truncated (dir.name i) = key ∧ dir.sector i = x := by
  unfold slots
  split_ifs with h <;> simp [h]

theorem slots_eq_none {i : Fin n} : dir.slots i = none ↔ dir.inUse i = false := by
  unfold slots
  split_ifs with h <;> simp [h]

theorem truncated_enter (i j : ℕ) (name : Mem) (x : BitVec 32) :
    truncated ((dir.enter i name x).name j) =
      if j = i then truncated name else truncated (dir.name j) := by
  by_cases h : j = i
  · rw [if_pos h, ← truncated_paddedString name]
    refine truncated_congr fun k hk => ?_
    rw [name_enter _ _ _ _ hk, if_pos h]
  · rw [if_neg h]
    refine truncated_congr fun k hk => ?_
    rw [name_enter _ _ _ _ hk, if_neg h]

theorem slots_enter (i : Fin n) (name : Mem) (x : BitVec 32) :
    (dir.enter i name x).slots = update dir.slots i (some (truncated name, x)) := by
  funext j
  unfold slots
  rw [inUse_enter, sector_enter, truncated_enter]
  by_cases h : j = i
  · rw [h, if_pos rfl, if_pos rfl, if_pos rfl, if_pos rfl, update_self]
  · have hval : (j : ℕ) ≠ i := fun hval => h (Fin.ext hval)
    rw [if_neg hval, if_neg hval, if_neg hval, update_of_ne h]

theorem slots_clear (i : Fin n) :
    (dir.setInUse i false).slots = update dir.slots i none := by
  funext j
  unfold slots
  rw [inUse_setInUse, sector_setInUse]
  by_cases h : j = i
  · rw [h, if_pos rfl, update_self]
    rfl
  · have hname : truncated ((dir.setInUse i false).name j) = truncated (dir.name j) :=
      truncated_congr fun k hk => name_setInUse i j false hk
    rw [if_neg fun hval => h (Fin.ext hval), update_of_ne h, hname]

theorem slots_new (block : Mem) (i : Fin n) : (new block : Directory n).slots i = none :=
  slots_eq_none.2 (inUse_new block i.isLt)

theorem Agree.slots (h : dir.Agree dir') : dir.slots = dir'.slots := by
  funext i
  have hname : truncated (dir.name i) = truncated (dir'.name i) :=
    truncated_congr fun k hk => h.name i.isLt hk
  unfold Directory.slots
  rw [h.inUse i.isLt, h.sector i.isLt, hname]

/-! ### What a directory that holds a map does -/

section Represents

variable {m : List Byte → Option (BitVec 32)}

theorem findIndex_none_iff (h : Represents dir.slots m) :
    dir.findIndex name = none ↔ m (truncated name) = none := by
  rw [findIndex_eq_none_iff, h.eq_none_iff]
  constructor
  · intro hnone i x hi
    obtain ⟨hu, hname, -⟩ := slots_eq_some.1 hi
    exact hnone i i.isLt hu ((strncmp_eq_zero_iff _ _ _).2 hname)
  · intro hnone i hi hu hcmp
    exact hnone ⟨i, hi⟩ (dir.sector i)
      (slots_eq_some.2 ⟨hu, (strncmp_eq_zero_iff _ _ _).1 hcmp, rfl⟩)

/-- The slot of a name that is found. -/
theorem findIndex_slot {i : ℕ} (hi : dir.findIndex name = some i) :
    ∃ hn : i < n, dir.slots ⟨i, hn⟩ = some (truncated name, dir.sector i) := by
  obtain ⟨hn, hu⟩ := findIndex_some hi
  have hentry := List.find?_some hi
  simp only [isEntry, Bool.and_eq_true, decide_eq_true_eq] at hentry
  exact ⟨hn, slots_eq_some.2 ⟨hu, (strncmp_eq_zero_iff _ _ _).1 hentry.2, rfl⟩⟩

theorem find_eq (h : Represents dir.slots m) (name : Mem) :
    dir.find name = ((m (truncated name)).map BitVec.toInt).getD (-1) := by
  unfold find
  cases hi : dir.findIndex name with
  | none => rw [(findIndex_none_iff h).1 hi, Option.map_none, Option.getD_none]
  | some i =>
    obtain ⟨hn, hslot⟩ := findIndex_slot hi
    rw [h.denotes.2 ⟨_, hslot⟩, Option.map_some, Option.getD_some]

theorem add_cases (dir : Directory n) (name : Mem) (x : BitVec 32) :
    (dir.add name x = (false, dir) ∧ (dir.findIndex name ≠ none ∨ dir.freeIndex = none)) ∨
      ∃ i, dir.findIndex name = none ∧ dir.freeIndex = some i ∧
        dir.add name x = (true, dir.enter i name x) := by
  unfold add
  cases hi : dir.findIndex name with
  | some i => exact Or.inl ⟨rfl, Or.inl (Option.some_ne_none i)⟩
  | none =>
    cases hf : dir.freeIndex with
    | none => exact Or.inl ⟨rfl, Or.inr rfl⟩
    | some i => exact Or.inr ⟨i, rfl, rfl, rfl⟩

/-- `Add` fails iff the name is known or there is no room, and then it changes nothing. -/
theorem add_fails_iff (h : Represents dir.slots m) (name : Mem) (x : BitVec 32) :
    ((dir.add name x).1 = false ↔
      m (truncated name) ≠ none ∨ ∀ i < n, dir.inUse i = true) ∧
    ((dir.add name x).1 = false → (dir.add name x).2 = dir) := by
  have hfull : dir.freeIndex = none ↔ ∀ i < n, dir.inUse i = true := by
    have hfree : dir.freeIndex ≠ none ↔ ∃ i < n, dir.inUse i = false := freeIndex_ne_none_iff
    simpa using not_congr hfree
  rw [← hfull, Ne, ← findIndex_none_iff h]
  rcases add_cases dir name x with ⟨heq, hwhy⟩ | ⟨i, hnone, hfree, heq⟩
  · rw [heq]
    exact ⟨iff_of_true rfl hwhy, fun _ => rfl⟩
  · rw [heq, hnone, hfree]
    simp

/-- `Add`, when it succeeds, inserts. -/
theorem represents_add (h : Represents dir.slots m) {x : BitVec 32}
    (hadd : (dir.add name x).1 = true) :
    Represents (dir.add name x).2.slots (update m (truncated name) (some x)) := by
  rcases add_cases dir name x with ⟨heq, -⟩ | ⟨i, hnone, hfree, heq⟩
  · rw [heq] at hadd
    cases hadd
  · obtain ⟨hi, hu⟩ := freeIndex_some hfree
    rw [heq]
    have hslots : (dir.enter i name x).slots =
        update dir.slots ⟨i, hi⟩ (some (truncated name, x)) := slots_enter ⟨i, hi⟩ name x
    rw [hslots]
    exact h.insert (slots_eq_none.2 hu) ((findIndex_none_iff h).1 hnone)

/-- `Remove` erases. -/
theorem represents_remove (h : Represents dir.slots m) (name : Mem) :
    Represents (dir.remove name).2.slots (update m (truncated name) none) := by
  unfold remove
  cases hi : dir.findIndex name with
  | none =>
    rw [← (findIndex_none_iff h).1 hi, update_eq_self]
    exact h
  | some i =>
    obtain ⟨hn, hslot⟩ := findIndex_slot hi
    rw [slots_clear ⟨i, hn⟩]
    exact h.erase hslot

/-- `Remove` succeeds iff the name is known, frees the entries with the name, of which there is one
at most, and changes nothing else. -/
theorem remove_frees (h : Represents dir.slots m) (name : Mem) :
    ((dir.remove name).1 = true ↔ m (truncated name) ≠ none) ∧
    ∀ i < n,
      ((dir.remove name).2.inUse i = true ↔
        dir.inUse i = true ∧ strncmp (dir.name i) name FileNameMaxLen ≠ 0) ∧
      (dir.remove name).2.sector i = dir.sector i ∧
      ∀ k < FileNameMaxLen, (dir.remove name).2.name i k = dir.name i k := by
  rw [Ne, ← findIndex_none_iff h]
  unfold remove
  cases hi : dir.findIndex name with
  | none =>
    refine ⟨by simp, fun j hj => ⟨?_, rfl, fun _ _ => rfl⟩⟩
    exact ⟨fun hu => ⟨hu, findIndex_eq_none_iff.1 hi j hj hu⟩, And.left⟩
  | some i =>
    obtain ⟨hn, hslot⟩ := findIndex_slot hi
    obtain ⟨-, hname, -⟩ := slots_eq_some.1 hslot
    refine ⟨by simp, fun j hj => ⟨?_, sector_setInUse .., fun k hk => name_setInUse _ _ _ hk⟩⟩
    rw [inUse_setInUse, Ne, strncmp_eq_zero_iff]
    by_cases hji : j = i
    · subst hji
      rw [if_pos rfl]
      exact iff_of_false Bool.false_ne_true fun hc => hc.2 hname
    · rw [if_neg hji]
      refine ⟨fun hu => ⟨hu, fun hc => hji ?_⟩, And.left⟩
      have hslot' : dir.slots ⟨j, hj⟩ = some (truncated name, dir.sector j) :=
        slots_eq_some.2 ⟨hu, hc, rfl⟩
      exact congrArg Fin.val (h.distinct hslot' hslot)

/-- No two entries in use have the same name. -/
theorem names_distinct (h : Represents dir.slots m) {i j : ℕ} (hi : i < n) (hj : j < n)
    (hui : dir.inUse i = true) (huj : dir.inUse j = true)
    (hname : strncmp (dir.name i) (dir.name j) FileNameMaxLen = 0) : i = j := by
  have hsi : dir.slots ⟨i, hi⟩ = some (truncated (dir.name j), dir.sector i) :=
    slots_eq_some.2 ⟨hui, (strncmp_eq_zero_iff _ _ _).1 hname, rfl⟩
  have hsj : dir.slots ⟨j, hj⟩ = some (truncated (dir.name j), dir.sector j) :=
    slots_eq_some.2 ⟨huj, rfl, rfl⟩
  exact congrArg Fin.val (h.distinct hsi hsj)

end Represents

/-! ### Runs -/

/-- What `Add` and `Remove` have done to the entries. -/
inductive Change
  | added (name : Mem) (sector : BitVec 32)
  | removed (name : Mem)

/-- The sector that the latest `Add` of a name was given, if the name has not been removed since.
The log begins with the latest change. -/
def latest : List Change → List Byte → Option (BitVec 32)
  | [], _ => none
  | .added name x :: log, key => if key = truncated name then some x else latest log key
  | .removed name :: log, key => if key = truncated name then none else latest log key

theorem latest_added (name : Mem) (x : BitVec 32) (log : List Change) :
    latest (.added name x :: log) = update (latest log) (truncated name) (some x) := by
  funext key
  rw [update_apply]
  rfl

theorem latest_removed (name : Mem) (log : List Change) :
    latest (.removed name :: log) = update (latest log) (truncated name) none := by
  funext key
  rw [update_apply]
  rfl

end Directory

/-- A directory in memory, and the disk with the directory file.  The logs are those of the table in
memory and of the one that `WriteBack` has last put on the disk. -/
structure DirSystem (n : ℕ) where
  dir : Directory n
  log : List Directory.Change
  mem : FsState
  saved : Option (List Directory.Change)

/-- What is done next. -/
inductive DirEvent
  | construct
  | add (name : Mem) (sector : BitVec 32)
  | remove (name : Mem)
  | writeBack
  | fetchFrom
  | other

variable {n : ℕ} {file : OpenFile}

/-- The steps; `file` is the directory file.  `FetchFrom` reads what a `WriteBack` has written, and
work on other files leaves the bytes of this one alone. -/
inductive DirStep (file : OpenFile) : DirSystem n → DirEvent → DirSystem n → Prop
  | construct {s : DirSystem n} (block : Mem) :
      DirStep file s .construct { s with dir := .new block, log := [] }
  | added {s : DirSystem n} {name : Mem} {x : BitVec 32} {dir : Directory n}
      (h : s.dir.add name x = (true, dir)) :
      DirStep file s (.add name x) { s with dir := dir, log := .added name x :: s.log }
  | notAdded {s : DirSystem n} {name : Mem} {x : BitVec 32} {dir : Directory n}
      (h : s.dir.add name x = (false, dir)) :
      DirStep file s (.add name x) { s with dir := dir }
  | removed {s : DirSystem n} {name : Mem} {dir : Directory n}
      (h : s.dir.remove name = (true, dir)) :
      DirStep file s (.remove name) { s with dir := dir, log := .removed name :: s.log }
  | notRemoved {s : DirSystem n} {name : Mem} {dir : Directory n}
      (h : s.dir.remove name = (false, dir)) :
      DirStep file s (.remove name) { s with dir := dir }
  | writeBack {s : DirSystem n} {mem : FsState} (h : s.dir.writeBack file s.mem = .ok ((), mem)) :
      DirStep file s .writeBack { s with mem := mem, saved := some s.log }
  | fetchFrom {s : DirSystem n} {dir : Directory n} {log : List Directory.Change} {mem : FsState}
      (hs : s.saved = some log) (h : s.dir.fetchFrom file s.mem = .ok (dir, mem)) :
      DirStep file s .fetchFrom { s with dir := dir, log := log, mem := mem }
  | other {s : DirSystem n} {mem : FsState}
      (h : ∀ k < file.hdr.length, fileByte mem.disk file.hdr k = fileByte s.mem.disk file.hdr k) :
      DirStep file s .other { s with mem := mem }

/-- A new directory. -/
def DirInit (s : DirSystem n) : Prop := (∃ block, s.dir = .new block) ∧ s.log = [] ∧ s.saved = none

/-- The tables hold what the logs say. -/
structure DirInv (file : OpenFile) (s : DirSystem n) : Prop where
  dir : Represents s.dir.slots (Directory.latest s.log)
  saved : ∀ log, s.saved = some log →
    Represents (⟨fileByte s.mem.disk file.hdr⟩ : Directory n).slots (Directory.latest log)

theorem dirInv_init {s : DirSystem n} (h : DirInit s) : DirInv file s := by
  obtain ⟨⟨block, hdir⟩, hlog, hsaved⟩ := h
  constructor
  · rw [hdir, hlog]
    exact represents_empty (Directory.slots_new block)
  · intro log h
    rw [hsaved] at h
    cases h

theorem dirInv_step (hcov : file.hdr.Covers) (hnd : file.hdr.sectors.Nodup)
    (hlen : file.hdr.length = n * EntrySize) {s t : DirSystem n} {e : DirEvent}
    (hinv : DirInv file s) (h : DirStep file s e t) : DirInv file t := by
  cases h with
  | construct block => exact ⟨represents_empty (Directory.slots_new block), hinv.saved⟩
  | @added name x dir h =>
    refine ⟨?_, hinv.saved⟩
    have hadd : Represents (s.dir.add name x).2.slots _ :=
      Directory.represents_add hinv.dir (by rw [h])
    rwa [h, ← Directory.latest_added] at hadd
  | @notAdded name x dir h =>
    refine ⟨?_, hinv.saved⟩
    have hkeep := (Directory.add_fails_iff hinv.dir name x).2 (by rw [h])
    rw [h] at hkeep
    obtain rfl : dir = s.dir := hkeep
    exact hinv.dir
  | @removed name dir h =>
    refine ⟨?_, hinv.saved⟩
    have hrem := Directory.represents_remove hinv.dir name
    rwa [h, ← Directory.latest_removed] at hrem
  | @notRemoved name dir h =>
    refine ⟨?_, hinv.saved⟩
    have hrem := Directory.represents_remove hinv.dir name
    -- the name was not there, so that erasing it is nothing
    have hnone : Directory.latest s.log (truncated name) = none := by
      by_contra hne
      have := (Directory.remove_frees hinv.dir name).1.2 hne
      rw [h] at this
      cases this
    rwa [h, ← hnone, update_eq_self] at hrem
  | writeBack h =>
    obtain ⟨d, heap, hrun, hagree, -⟩ := Directory.writeBack_run s.dir hcov hnd hlen s.mem
    rw [hrun] at h
    cases h
    refine ⟨hinv.dir, fun log hlog => ?_⟩
    cases hlog
    rw [hagree.slots]
    exact hinv.dir
  | @fetchFrom dir log mem hs h =>
    obtain ⟨dir', heap, hrun, hagree⟩ := Directory.fetchFrom_run s.dir hcov hlen s.mem
    rw [hrun] at h
    cases h
    refine ⟨?_, hinv.saved⟩
    rw [hagree.slots]
    exact hinv.saved log hs
  | @other mem h =>
    refine ⟨hinv.dir, fun log hlog => ?_⟩
    have hagree : (⟨fileByte mem.disk file.hdr⟩ : Directory n).Agree
        ⟨fileByte s.mem.disk file.hdr⟩ := fun k hk => h k (by rwa [hlen])
    rw [hagree.slots]
    exact hinv.saved log hlog

/-- **The directory is a finite map on truncated names.** After every run: no two entries in use
have the same name; `Find` returns the sector of the latest `Add` that has not been removed since,
or `-1`; `Add` fails, and changes nothing, iff there is such an entry or no room; `Remove` frees
this entry and no other, and changes nothing else; `WriteBack` and `FetchFrom` return. -/
theorem Directory.finite_map (hcov : file.hdr.Covers) (hnd : file.hdr.sectors.Nodup)
    (hlen : file.hdr.length = n * EntrySize) {s : DirSystem n}
    (h : Reach DirInit (DirStep file) s) :
    (∀ i < n, ∀ j < n, s.dir.inUse i = true → s.dir.inUse j = true →
      strncmp (s.dir.name i) (s.dir.name j) FileNameMaxLen = 0 → i = j) ∧
    (∀ name, s.dir.find name =
      ((latest s.log (truncated name)).map BitVec.toInt).getD (-1)) ∧
    (∀ name x,
      ((s.dir.add name x).1 = false ↔
        latest s.log (truncated name) ≠ none ∨ ∀ i < n, s.dir.inUse i = true) ∧
      ((s.dir.add name x).1 = false → (s.dir.add name x).2 = s.dir)) ∧
    (∀ name,
      ((s.dir.remove name).1 = true ↔ latest s.log (truncated name) ≠ none) ∧
      ∀ i < n,
        ((s.dir.remove name).2.inUse i = true ↔
          s.dir.inUse i = true ∧ strncmp (s.dir.name i) name FileNameMaxLen ≠ 0) ∧
        (s.dir.remove name).2.sector i = s.dir.sector i ∧
        ∀ k < FileNameMaxLen, (s.dir.remove name).2.name i k = s.dir.name i k) ∧
    (∃ mem, s.dir.writeBack file s.mem = .ok ((), mem)) ∧
    ∃ dir mem, s.dir.fetchFrom file s.mem = .ok (dir, mem) := by
  have hinv : DirInv file s := h.invariant (fun _ => dirInv_init)
    fun _ _ _ hi hs => dirInv_step hcov hnd hlen hi hs
  refine ⟨fun i hi j hj hui huj => names_distinct hinv.dir hi hj hui huj, find_eq hinv.dir,
    add_fails_iff hinv.dir, remove_frees hinv.dir, ?_, ?_⟩
  · obtain ⟨d, heap, hrun, -⟩ := writeBack_run s.dir hcov hnd hlen s.mem
    exact ⟨_, hrun⟩
  · obtain ⟨dir, heap, hrun, -⟩ := fetchFrom_run s.dir hcov hlen s.mem
    exact ⟨dir, _, hrun⟩

/-- A file for a directory with two entries. -/
def twoEntries : OpenFile := ⟨⟨40, 1, fun _ => 5⟩, 0⟩

/-- A name of this many equal characters. -/
def longName (length : ℕ) : Mem := fun k => if k < length then 97 else 0

theorem twoEntries_covers : twoEntries.hdr.Covers where
  count_le := by decide
  sector_lt := by decide
  length_le := by decide

/-- After `Add`, `WriteBack` and `FetchFrom` into a new directory, a name of nine characters is
found under a longer one. -/
theorem finite_map_longName : ∃ s : DirSystem 2,
    Reach DirInit (DirStep twoEntries) s ∧ s.dir.find (longName 12) = 7 := by
  have hnd : twoEntries.hdr.sectors.Nodup := by decide
  have hlen : twoEntries.hdr.length = 2 * EntrySize := by decide
  have hinit : Reach DirInit (DirStep twoEntries)
      (⟨.new fun _ => 255, [], ⟨fun _ => 0, fun _ _ => 0⟩, none⟩ : DirSystem 2) :=
    .init ⟨⟨_, rfl⟩, rfl, rfl⟩
  have hadded := hinit.step (.add (longName 9) 7) (.added rfl)
  obtain ⟨d, heap, hwrite, -⟩ := Directory.writeBack_run (n := 2) _ twoEntries_covers hnd hlen _
  have hnew := (hadded.step .writeBack (.writeBack hwrite)).step .construct (.construct fun _ => 0)
  obtain ⟨dir, heap', hfetch, -⟩ := Directory.fetchFrom_run (n := 2) _ twoEntries_covers hlen _
  have hfetched := hnew.step .fetchFrom (.fetchFrom rfl hfetch)
  refine ⟨_, hfetched, ?_⟩
  rw [(Directory.finite_map twoEntries_covers hnd hlen hfetched).2.1 (longName 12)]
  have hlatest : Directory.latest [.added (longName 9) 7] (truncated (longName 12)) = some 7 := by
    decide
  exact congrArg (fun o => (o.map BitVec.toInt).getD (-1)) hlatest

end Nachos
