import Mathlib.Data.Fintype.Card
import Nachos.Filesys.Directory
import Nachos.Lib.Transition

/-!
# The bitmap as a finite set

A bitmap of `n` bits stands for a set of numbers below `n`; `Mark` and `Find` insert, and `Clear`
erases.

* `BitMap.bits`: the set, and what the operations do to it.
* `BitStep`: the operations on a bitmap, and on files with copies of it; the log records the bits
  marked and cleared.  `Test` and `NumClear` only look.
* `BitMap.finite_set`: after every run the bitmap holds what the log says.
-/

namespace Nachos

open Fallible Function Transition

namespace BitMap

variable {n : ℕ} {b b' : BitMap n} {i j : Fin n}

/-! ### The set -/

/-- The set of the bits that are set. -/
def bits (b : BitMap n) : Finset (Fin n) := Finset.univ.filter fun i => b.isSet i = true

@[simp] theorem mem_bits : i ∈ b.bits ↔ b.isSet i = true := by simp [bits]

theorem notMem_bits : i ∉ b.bits ↔ b.isSet i = false := by simp

theorem bits_congr (h : ∀ i < n, b.isSet i = b'.isSet i) : b.bits = b'.bits := by
  ext i
  rw [mem_bits, mem_bits, h i i.isLt]

theorem test_fin (b : BitMap n) (i : Fin n) :
    b.test ((i : ℕ) : ℤ) = .ok (decide (i ∈ b.bits)) := by
  have := i.isLt
  rw [test, if_pos (by omega), Int.toNat_natCast]
  simp

theorem bits_new (words : ℕ → BitVec 32) : (new n words).bits = ∅ := by
  ext i
  simp [isSet_new words i.isLt]

theorem bits_setBit (b : BitMap n) (i : Fin n) : (b.setBit i).bits = insert i b.bits := by
  ext j
  have hij : (i : ℕ) = j ↔ j = i := by rw [Fin.ext_iff, eq_comm]
  simp [hij]

theorem bits_clearBit (b : BitMap n) (i : Fin n) : (b.clearBit i).bits = b.bits.erase i := by
  ext j
  have hij : (i : ℕ) = j ↔ j = i := by rw [Fin.ext_iff, eq_comm]
  simp [hij]

theorem find_isLeast (h : b.find = (some i, b')) :
    IsLeast {j | j ∉ b.bits} i ∧ b'.bits = insert i b.bits := by
  obtain ⟨hclear, hbefore, rfl⟩ := find_some h
  refine ⟨⟨notMem_bits.2 hclear, fun j hj => ?_⟩, bits_setBit b i⟩
  by_contra hlt
  exact hj (mem_bits.2 (hbefore j (not_le.1 hlt)))

theorem find_eq_none_iff : b.find.1 = none ↔ b.bits = Finset.univ := by
  cases hfind : b.find with
  | mk o b' =>
    cases o with
    | none =>
      refine iff_of_true rfl (Finset.eq_univ_iff_forall.2 fun i => ?_)
      exact mem_bits.2 ((find_none hfind).1 i)
    | some i =>
      refine iff_of_false (Option.some_ne_none i) fun hall => ?_
      exact (find_isLeast hfind).1.1 (hall ▸ Finset.mem_univ i)

theorem numClear_eq_sub (b : BitMap n) : b.numClear = n - b.bits.card := by
  have hclear : b.clearBits.toFinset = b.bitsᶜ := by
    ext i
    simp
  rw [numClear_eq, ← List.toFinset_card_of_nodup b.nodup_clearBits, hclear, Finset.card_compl,
    Fintype.card_fin]

/-- The bitmap after `k` calls of `Find`. -/
def afterFinds (b : BitMap n) (k : ℕ) : BitMap n := (fun b => b.find.2)^[k] b

/-- Every `Find` takes one of the clear bits. -/
theorem clearBits_afterFinds (b : BitMap n) (k : ℕ) :
    (b.afterFinds k).clearBits = b.clearBits.drop k := by
  induction k with
  | zero => rfl
  | succ k ih =>
    unfold afterFinds at ih ⊢
    rw [Function.iterate_succ_apply', ← List.drop_drop, ← ih]
    cases hc : ((fun b : BitMap n => b.find.2)^[k] b).clearBits with
    | nil => rw [find_clearBits_nil hc, hc, List.drop_nil]
    | cons i l =>
      obtain ⟨hfind, hrest⟩ := find_clearBits hc
      rw [hfind, hrest, List.drop_one, List.tail_cons]

/-- There are as many bits to find as are clear. -/
theorem find_afterFinds (b : BitMap n) (k : ℕ) :
    (b.afterFinds k).find.1.isSome ↔ k < b.numClear := by
  have hdrop := b.clearBits_afterFinds k
  rw [numClear_eq]
  cases hc : (b.afterFinds k).clearBits with
  | nil =>
    rw [hc, eq_comm, List.drop_eq_nil_iff] at hdrop
    rw [find_clearBits_nil hc]
    exact iff_of_false Bool.false_ne_true (Nat.not_lt.2 hdrop)
  | cons i l =>
    rw [(find_clearBits hc).1]
    refine iff_of_true rfl ?_
    by_contra hle
    rw [List.drop_eq_nil_of_le (Nat.not_lt.1 hle), hc] at hdrop
    cases hdrop

/-! ### What has been done to it -/

/-- A bit has been marked, by `Mark` or by `Find`, or cleared. -/
inductive Change (n : ℕ)
  | marked (i : Fin n)
  | cleared (i : Fin n)
  deriving DecidableEq

/-- The set after the changes of a log, which begins with the latest. -/
def recent : List (Change n) → Finset (Fin n)
  | [] => ∅
  | .marked i :: log => insert i (recent log)
  | .cleared i :: log => (recent log).erase i

/-- The bits that were marked more recently than cleared. -/
theorem mem_recent {log : List (Change n)} :
    i ∈ recent log ↔
      ∃ later earlier, log = later ++ .marked i :: earlier ∧ .cleared i ∉ later := by
  induction log with
  | nil => simp [recent]
  | cons change log ih =>
    have hcons : (∃ later earlier, change :: log = later ++ .marked i :: earlier ∧
        Change.cleared i ∉ later) ↔ change = .marked i ∨ change ≠ .cleared i ∧ i ∈ recent log := by
      rw [ih]
      constructor
      · rintro ⟨later, earlier, hlog, hnot⟩
        cases later with
        | nil => exact Or.inl (List.cons.inj hlog).1
        | cons first later =>
          obtain ⟨rfl, hrest⟩ := List.cons.inj hlog
          refine Or.inr ⟨fun he => hnot (he ▸ List.mem_cons_self), later, earlier, hrest, ?_⟩
          exact fun hmem => hnot (List.mem_cons_of_mem _ hmem)
      · rintro (rfl | ⟨hne, later, earlier, rfl, hnot⟩)
        · exact ⟨[], log, rfl, List.not_mem_nil⟩
        · refine ⟨change :: later, earlier, rfl, fun hmem => ?_⟩
          rcases List.mem_cons.1 hmem with he | hmem
          · exact hne he.symm
          · exact hnot hmem
    rw [hcons]
    cases change with
    | marked j => simp [recent, eq_comm]
    | cleared j => simp [recent, eq_comm]

end BitMap

/-! ### Runs -/

variable {ι : Type} {n : ℕ}

/-- A bitmap in memory, and the disk with files for it.  The logs are those of the map in memory and
of the one that `WriteBack` has last put into a file. -/
structure BitSystem (ι : Type) (n : ℕ) where
  map : BitMap n
  log : List (BitMap.Change n)
  mem : FsState
  saved : ι → Option (List (BitMap.Change n))

/-- What is done next. -/
inductive BitEvent (ι : Type) (n : ℕ)
  | construct
  | mark (which : Fin n)
  | clear (which : Fin n)
  | find
  | writeBack (file : ι)
  | fetchFrom (file : ι)
  | other

/-- The steps.  `FetchFrom` reads what a `WriteBack` has written, and work on other files leaves the
bytes of these alone. -/
inductive BitStep [DecidableEq ι] (files : ι → OpenFile) :
    BitSystem ι n → BitEvent ι n → BitSystem ι n → Prop
  | construct {s : BitSystem ι n} (words : ℕ → BitVec 32) :
      BitStep files s .construct { s with map := .new n words, log := [] }
  | mark {s : BitSystem ι n} {which : Fin n} {map : BitMap n}
      (h : s.map.mark (which : ℕ) = .ok map) :
      BitStep files s (.mark which) { s with map := map, log := .marked which :: s.log }
  | clear {s : BitSystem ι n} {which : Fin n} {map : BitMap n}
      (h : s.map.clear (which : ℕ) = .ok map) :
      BitStep files s (.clear which) { s with map := map, log := .cleared which :: s.log }
  | found {s : BitSystem ι n} {i : Fin n} {map : BitMap n} (h : s.map.find = (some i, map)) :
      BitStep files s .find { s with map := map, log := .marked i :: s.log }
  | notFound {s : BitSystem ι n} {map : BitMap n} (h : s.map.find = (none, map)) :
      BitStep files s .find { s with map := map }
  | writeBack {s : BitSystem ι n} {f : ι} {mem : FsState}
      (h : s.map.writeBack (files f) s.mem = .ok ((), mem)) :
      BitStep files s (.writeBack f)
        { s with mem := mem, saved := update s.saved f (some s.log) }
  | fetchFrom {s : BitSystem ι n} {f : ι} {map : BitMap n} {log : List (BitMap.Change n)}
      {mem : FsState} (hs : s.saved f = some log)
      (h : s.map.fetchFrom (files f) s.mem = .ok (map, mem)) :
      BitStep files s (.fetchFrom f) { s with map := map, log := log, mem := mem }
  | other {s : BitSystem ι n} {mem : FsState}
      (h : ∀ f, ∀ k < (files f).hdr.length,
        fileByte mem.disk (files f).hdr k = fileByte s.mem.disk (files f).hdr k) :
      BitStep files s .other { s with mem := mem }

/-- A new bitmap. -/
def BitInit (s : BitSystem ι n) : Prop :=
  (∃ words, s.map = .new n words) ∧ s.log = [] ∧ ∀ f, s.saved f = none

/-- The files are long enough for the bitmap, and have sectors of their own. -/
structure BitFiles (n : ℕ) (files : ι → OpenFile) : Prop where
  covers : ∀ f, (files f).hdr.Covers
  nodup : ∀ f, (files f).hdr.sectors.Nodup
  length : ∀ f, 4 * divRoundUp n BitsInWord ≤ (files f).hdr.length
  apart : ∀ f g, f ≠ g → ∀ x ∈ (files f).hdr.sectors, x ∉ (files g).hdr.sectors

/-- The bitmap in a file. -/
def bitsIn (disk : ByteMemory.Mem) (file : OpenFile) : Finset (Fin n) :=
  (BitMap.ofBytes (fileByte disk file.hdr) : BitMap n).bits

/-- The maps hold what the logs say. -/
structure BitInv (files : ι → OpenFile) (s : BitSystem ι n) : Prop where
  map : s.map.bits = BitMap.recent s.log
  saved : ∀ f log, s.saved f = some log → bitsIn s.mem.disk (files f) = BitMap.recent log

section invariant

variable {files : ι → OpenFile} {s t : BitSystem ι n}

theorem bitInv_init (h : BitInit s) : BitInv files s := by
  obtain ⟨⟨words, hmap⟩, hlog, hsaved⟩ := h
  constructor
  · rw [hmap, hlog]
    exact BitMap.bits_new words
  · intro f log h
    rw [hsaved] at h
    cases h

theorem BitFiles.bitsIn_congr (hf : BitFiles n files) {f : ι} {d d' : ByteMemory.Mem}
    (h : ∀ k < (files f).hdr.length,
      fileByte d' (files f).hdr k = fileByte d (files f).hdr k) :
    (bitsIn d' (files f) : Finset (Fin n)) = bitsIn d (files f) :=
  BitMap.bits_congr fun _ hi => BitMap.isSet_congr hi fun k hk =>
    h k (lt_of_lt_of_le hk (hf.length f))

theorem BitFiles.writeBack_returns (hf : BitFiles n files) (map : BitMap n) (f : ι)
    (mem : FsState) : ∃ mem', map.writeBack (files f) mem = .ok ((), mem') := by
  obtain ⟨d, heap, hrun, -⟩ :=
    BitMap.writeBack_run map (hf.covers f) (hf.nodup f) (hf.length f) mem
  exact ⟨_, hrun⟩

theorem BitFiles.fetchFrom_returns (hf : BitFiles n files) (map : BitMap n) (f : ι)
    (mem : FsState) : ∃ map' mem', map.fetchFrom (files f) mem = .ok (map', mem') := by
  obtain ⟨map', heap, hrun, -⟩ := BitMap.fetchFrom_run map (hf.covers f) (hf.length f) mem
  exact ⟨map', _, hrun⟩

variable [DecidableEq ι]

theorem BitFiles.reach_writeBack (hf : BitFiles n files)
    (h : Reach BitInit (BitStep files) s) (f : ι) :
    ∃ mem, Reach BitInit (BitStep files)
      { s with mem := mem, saved := update s.saved f (some s.log) } := by
  obtain ⟨mem, hrun⟩ := hf.writeBack_returns s.map f s.mem
  exact ⟨mem, h.step _ (.writeBack hrun)⟩

theorem BitFiles.reach_fetchFrom (hf : BitFiles n files)
    (h : Reach BitInit (BitStep files) s) (f : ι) {log : List (BitMap.Change n)}
    (hs : s.saved f = some log) :
    ∃ map mem, Reach BitInit (BitStep files)
      { s with map := map, log := log, mem := mem } := by
  obtain ⟨map, mem, hrun⟩ := hf.fetchFrom_returns s.map f s.mem
  exact ⟨map, mem, h.step _ (.fetchFrom hs hrun)⟩

theorem bitInv_step (hf : BitFiles n files) {e : BitEvent ι n} (hinv : BitInv files s)
    (h : BitStep files s e t) : BitInv files t := by
  cases h with
  | construct words => exact ⟨BitMap.bits_new words, hinv.saved⟩
  | @mark which map h =>
    rw [BitMap.mark_fin] at h
    cases h
    refine ⟨?_, hinv.saved⟩
    rw [BitMap.bits_setBit, hinv.map]
    rfl
  | @clear which map h =>
    rw [BitMap.clear_fin] at h
    cases h
    refine ⟨?_, hinv.saved⟩
    rw [BitMap.bits_clearBit, hinv.map]
    rfl
  | @found i map h =>
    refine ⟨?_, hinv.saved⟩
    rw [(BitMap.find_isLeast h).2, hinv.map]
    rfl
  | @notFound map h =>
    obtain rfl := (BitMap.find_none h).2
    exact ⟨hinv.map, hinv.saved⟩
  | @writeBack f mem h =>
    obtain ⟨d, heap, hrun, hbits, hch⟩ :=
      BitMap.writeBack_run s.map (hf.covers f) (hf.nodup f) (hf.length f) s.mem
    rw [hrun] at h
    cases h
    refine ⟨hinv.map, fun g log hlog => ?_⟩
    change update s.saved f (some s.log) g = some log at hlog
    change bitsIn d (files g) = _
    by_cases hg : g = f
    · subst hg
      rw [update_self] at hlog
      cases hlog
      exact (BitMap.bits_congr hbits).trans hinv.map
    · rw [update_of_ne hg] at hlog
      rw [← hinv.saved g log hlog]
      refine hf.bitsIn_congr fun k hk => hch.fileByte (hf.apart g f hg) ?_
      exact (hf.covers g).div_lt hk
  | @fetchFrom f map log mem hs h =>
    obtain ⟨map', heap, hrun, hbits⟩ :=
      BitMap.fetchFrom_run s.map (hf.covers f) (hf.length f) s.mem
    rw [hrun] at h
    cases h
    exact ⟨(BitMap.bits_congr hbits).trans (hinv.saved f log hs), hinv.saved⟩
  | @other mem h =>
    refine ⟨hinv.map, fun f log hlog => ?_⟩
    rw [← hinv.saved f log hlog]
    exact hf.bitsIn_congr (h f)

end invariant

/-- **The bitmap is a finite set.** After every run: `Test` says whether a bit was marked more
recently than cleared; `Mark` and `Clear` change no other bit; `Find` returns the least clear bit
and marks it, or `-1`, with no change, iff all bits are set; `NumClear` is the number of bits less
the number of those that are set, and as many further calls of `Find` succeed; `WriteBack` and
`FetchFrom` return. -/
theorem BitMap.finite_set [DecidableEq ι] {files : ι → OpenFile} (hf : BitFiles n files)
    {s : BitSystem ι n} (h : Reach BitInit (BitStep files) s) :
    (∀ i : Fin n, ∃ bit, s.map.test (i : ℕ) = .ok bit ∧ (bit = true ↔
      ∃ later earlier, s.log = later ++ .marked i :: earlier ∧ .cleared i ∉ later)) ∧
    (∀ i : Fin n, ∃ map, s.map.mark (i : ℕ) = .ok map ∧
      ∀ j : Fin n, map.test (j : ℕ) = if j = i then .ok true else s.map.test (j : ℕ)) ∧
    (∀ i : Fin n, ∃ map, s.map.clear (i : ℕ) = .ok map ∧
      ∀ j : Fin n, map.test (j : ℕ) = if j = i then .ok false else s.map.test (j : ℕ)) ∧
    (∀ i map, s.map.find = (some i, map) →
      IsLeast {j : Fin n | s.map.test (j : ℕ) = .ok false} i ∧
      ∀ j : Fin n, map.test (j : ℕ) = if j = i then .ok true else s.map.test (j : ℕ)) ∧
    (s.map.find.1 = none ↔ ∀ j : Fin n, s.map.test (j : ℕ) = .ok true) ∧
    (s.map.find.1 = none → s.map.find.2 = s.map) ∧
    s.map.numClear =
      n - (Finset.univ.filter fun j : Fin n => s.map.test (j : ℕ) = .ok true).card ∧
    (∀ k, (s.map.afterFinds k).find.1.isSome ↔ k < s.map.numClear) ∧
    ∀ f, (∃ mem, s.map.writeBack (files f) s.mem = .ok ((), mem)) ∧
      ∃ map mem, s.map.fetchFrom (files f) s.mem = .ok (map, mem) := by
  have hinv : BitInv files s := h.invariant (fun _ => bitInv_init)
    fun _ _ _ hi hs => bitInv_step hf hi hs
  have htrue : ∀ j : Fin n, s.map.test (j : ℕ) = .ok true ↔ j ∈ s.map.bits := fun j => by
    simp [test_fin]
  have hfalse : ∀ j : Fin n, s.map.test (j : ℕ) = .ok false ↔ j ∉ s.map.bits := fun j => by
    simp [test_fin]
  refine ⟨fun i => ⟨_, test_fin s.map i, ?_⟩, fun i => ⟨_, mark_fin s.map i, fun j => ?_⟩,
    fun i => ⟨_, clear_fin s.map i, fun j => ?_⟩, fun i map hfind => ?_, ?_, fun hnone => ?_, ?_,
    find_afterFinds s.map,
    fun f => ⟨hf.writeBack_returns s.map f s.mem, hf.fetchFrom_returns s.map f s.mem⟩⟩
  · rw [decide_eq_true_iff, hinv.map]
    exact mem_recent
  · rw [test_fin, test_fin, bits_setBit]
    by_cases hj : j = i
    · simp [hj]
    · simp [hj]
  · rw [test_fin, test_fin, bits_clearBit]
    by_cases hj : j = i
    · simp [hj]
    · simp [hj]
  · obtain ⟨hleast, hbits⟩ := find_isLeast hfind
    refine ⟨?_, fun j => ?_⟩
    · simpa only [hfalse] using hleast
    · rw [test_fin, test_fin, hbits]
      by_cases hj : j = i
      · simp [hj]
      · simp [hj]
  · rw [find_eq_none_iff, Finset.eq_univ_iff_forall]
    exact forall_congr' fun j => (htrue j).symm
  · obtain ⟨hall, hsame⟩ := find_none (Prod.ext hnone rfl : s.map.find = (none, s.map.find.2))
    exact hsame
  · rw [numClear_eq_sub]
    congr 2
    ext j
    rw [Finset.mem_filter, htrue]
    simp

/-- A file of eight bytes, for a bitmap of 40 bits. -/
def twoWords : OpenFile := ⟨⟨8, 1, fun _ => 5⟩, 0⟩

theorem bitFiles_twoWords : BitFiles 40 fun _ : Unit => twoWords where
  covers _ := { count_le := by decide, sector_lt := by decide, length_le := by decide }
  nodup _ := by decide
  length _ := by decide
  apart f g h := absurd (Subsingleton.elim f g) h

/-- Bit 35 is marked, saved, cleared and fetched again. -/
theorem finite_set_twoWords : ∃ s : BitSystem Unit 40,
    Reach BitInit (BitStep fun _ => twoWords) s ∧ s.map.test 35 = .ok true := by
  have hinit : Reach BitInit (BitStep fun _ => twoWords)
      (⟨.new 40 fun _ => 0xDEADBEEF, [], ⟨fun _ => 0, fun _ _ => 0⟩, fun _ => none⟩ :
        BitSystem Unit 40) := .init ⟨⟨_, rfl⟩, rfl, fun _ => rfl⟩
  have hmarked := hinit.step (.mark 35) (.mark (BitMap.mark_fin _ _))
  obtain ⟨mem, hsaved⟩ := bitFiles_twoWords.reach_writeBack hmarked ()
  have hcleared := hsaved.step (.clear 35) (.clear (BitMap.clear_fin _ _))
  obtain ⟨map, mem', hfetched⟩ := bitFiles_twoWords.reach_fetchFrom hcleared () rfl
  refine ⟨_, hfetched, ?_⟩
  obtain ⟨bit, htest, hbit⟩ := (BitMap.finite_set bitFiles_twoWords hfetched).1 35
  rw [hbit.2 ⟨[], [], rfl, List.not_mem_nil⟩] at htest
  exact htest

end Nachos
