import Nachos.Machine.Basic

/-!
# `userprog/bitmap.cc`

A bitmap is an array of 32-bit words.  The number of bits is an index of the type, so that the
maps of a fixed size (frames, swap slots, the exec table) need no side condition; the argument of
`Mark`, `Clear` and `Test` is a C `int`, and the `ASSERT` on its range is the fault `bitMapRange`.

The lemmas say what every operation does to `isSet`, the set of bits that the map stands for.
-/

namespace Nachos

open Function

/-- `BitsInWord`. -/
abbrev BitsInWord : ℕ := 32

/-- `class BitMap`: `numWords` words are in use. -/
structure BitMap (numBits : ℕ) where
  map : ℕ → BitVec 32

namespace BitMap

variable {n : ℕ}

/-- `numWords`. -/
def numWords (_ : BitMap n) : ℕ := divRoundUp n BitsInWord

/-- The bit that `map[which / BitsInWord] & (1 << (which % BitsInWord))` looks at. -/
def isSet (b : BitMap n) (which : ℕ) : Bool :=
  b.map (which / BitsInWord) &&& (1#32 <<< (which % BitsInWord)) != 0

/-- `map[which / BitsInWord] |= 1 << (which % BitsInWord)`. -/
def setBit (b : BitMap n) (which : ℕ) : BitMap n :=
  ⟨update b.map (which / BitsInWord)
    (b.map (which / BitsInWord) ||| (1#32 <<< (which % BitsInWord)))⟩

/-- `map[which / BitsInWord] &= ~(1 << (which % BitsInWord))`. -/
def clearBit (b : BitMap n) (which : ℕ) : BitMap n :=
  ⟨update b.map (which / BitsInWord)
    (b.map (which / BitsInWord) &&& ~~~(1#32 <<< (which % BitsInWord)))⟩

/-- `BitMap::Mark`. -/
def mark (b : BitMap n) (which : ℤ) : Except Fault (BitMap n) :=
  if 0 ≤ which ∧ which < n then .ok (b.setBit which.toNat) else .error .bitMapRange

/-- `BitMap::Clear`. -/
def clear (b : BitMap n) (which : ℤ) : Except Fault (BitMap n) :=
  if 0 ≤ which ∧ which < n then .ok (b.clearBit which.toNat) else .error .bitMapRange

/-- `BitMap::Test`. -/
def test (b : BitMap n) (which : ℤ) : Except Fault Bool :=
  if 0 ≤ which ∧ which < n then .ok (b.isSet which.toNat) else .error .bitMapRange

/-- `BitMap::Find`: the first clear bit, which is set on the way; `none` is the `-1` of the
source, which changes nothing. -/
def find (b : BitMap n) : Option (Fin n) × BitMap n :=
  match (List.finRange n).find? (fun i : Fin n => !b.isSet i) with
  | some i => (some i, b.setBit i)
  | none => (none, b)

/-- `BitMap::NumClear`. -/
def numClear (b : BitMap n) : ℕ := ((List.finRange n).filter fun i : Fin n => !b.isSet i).length

/-- `BitMap::BitMap`: the words of `new unsigned int[numWords]` are whatever was there, and every
bit is cleared in turn. -/
def new (n : ℕ) (words : ℕ → BitVec 32) : BitMap n :=
  (List.range n).foldl clearBit ⟨words⟩

/-! ### What the operations do to the set of bits -/

theorem isSet_eq (b : BitMap n) (which : ℕ) :
    b.isSet which = (b.map (which / BitsInWord)).getLsbD (which % BitsInWord) := by
  have hk : which % BitsInWord < 32 := Nat.mod_lt _ (by decide)
  unfold isSet
  rw [← BitVec.twoPow_eq, BitVec.and_twoPow]
  split_ifs with h
  · have hmask : BitVec.twoPow 32 (which % BitsInWord) ≠ 0#32 := by
      intro h0
      have hbit := congrArg (fun x : BitVec 32 => x.getLsbD (which % BitsInWord)) h0
      simp [hk] at hbit
    simp [h, hmask]
  · simp [h]

/-- In one word, the place in the word tells the bits apart. -/
theorem decide_mod_eq {i j : ℕ} (hw : j / BitsInWord = i / BitsInWord) :
    decide (i % BitsInWord = j % BitsInWord) = decide (i = j) := by
  apply decide_eq_decide.2
  unfold BitsInWord at *
  omega

@[simp] theorem isSet_setBit (b : BitMap n) (i j : ℕ) :
    (b.setBit i).isSet j = (decide (i = j) || b.isSet j) := by
  have hi : i % BitsInWord < 32 := Nat.mod_lt _ (by decide)
  simp only [isSet_eq, setBit, ← BitVec.twoPow_eq]
  by_cases hw : j / BitsInWord = i / BitsInWord
  · rw [hw, update_self, BitVec.getLsbD_or, BitVec.getLsbD_twoPow, decide_mod_eq hw,
      Bool.or_comm]
    simp [hi]
  · have hij : i ≠ j := fun h => hw (by rw [h])
    rw [update_of_ne hw]
    simp [hij]

@[simp] theorem isSet_clearBit (b : BitMap n) (i j : ℕ) :
    (b.clearBit i).isSet j = (!decide (i = j) && b.isSet j) := by
  have hi : i % BitsInWord < 32 := Nat.mod_lt _ (by decide)
  have hj : j % BitsInWord < 32 := Nat.mod_lt _ (by decide)
  simp only [isSet_eq, clearBit, ← BitVec.twoPow_eq]
  by_cases hw : j / BitsInWord = i / BitsInWord
  · rw [hw, update_self, BitVec.getLsbD_and, BitVec.getLsbD_not, BitVec.getLsbD_twoPow,
      decide_mod_eq hw, Bool.and_comm]
    simp [hi, hj]
  · have hij : i ≠ j := fun h => hw (by rw [h])
    rw [update_of_ne hw]
    simp [hij]

/-- A bit is set after the constructor iff it was never cleared: none below `n` is. -/
theorem isSet_new (words : ℕ → BitVec 32) {i : ℕ} (hi : i < n) : (new n words).isSet i = false := by
  have key : ∀ (l : List ℕ) (b : BitMap n),
      (l.foldl clearBit b).isSet i = (!decide (i ∈ l) && b.isSet i) := by
    intro l
    induction l with
    | nil => simp
    | cons a l ih =>
      intro b
      rw [List.foldl_cons, ih, isSet_clearBit]
      by_cases ha : a = i
      · simp [ha]
      · simp [ha, Ne.symm ha]
  rw [new, key]
  simp [hi]

/-- `Find` when it finds: the bit was clear, all before it were set, and now it is set too. -/
theorem find_some {b b' : BitMap n} {i : Fin n} (h : b.find = (some i, b')) :
    b.isSet i = false ∧ (∀ j < i, b.isSet j = true) ∧ b' = b.setBit i := by
  unfold find at h
  cases hf : (List.finRange n).find? fun i : Fin n => !b.isSet i with
  | none => simp [hf] at h
  | some k =>
    simp only [hf, Prod.mk.injEq, Option.some.injEq] at h
    obtain ⟨rfl, rfl⟩ := h
    rw [← Fin.find?_eq_find?_finRange, Fin.find?_eq_some_iff] at hf
    simpa using hf

/-- `Find` when it returns `-1`: every bit is set, and nothing has changed. -/
theorem find_none {b b' : BitMap n} (h : b.find = (none, b')) :
    (∀ i : Fin n, b.isSet i = true) ∧ b' = b := by
  unfold find at h
  cases hf : (List.finRange n).find? fun i : Fin n => !b.isSet i with
  | none =>
    simp only [hf, Prod.mk.injEq, true_and] at h
    refine ⟨fun i => ?_, h.symm⟩
    simpa using List.find?_eq_none.1 hf i (List.mem_finRange i)
  | some k => simp [hf] at h

/-- `Find` on a map with exactly one clear bit returns that bit. -/
theorem find_only {b : BitMap n} {i : Fin n} (hi : b.isSet i = false)
    (h : ∀ j, j ≠ i → b.isSet j = true) : b.find = (some i, b.setBit i) := by
  cases hf : b.find with
  | mk o b' =>
    cases o with
    | none => simp [(find_none hf).1 i] at hi
    | some k =>
      obtain ⟨hk, -, rfl⟩ := find_some hf
      have : k = i := by
        by_contra hne
        rw [h k hne] at hk
        cases hk
      rw [this]

theorem clear_ok {b b' : BitMap n} {which : ℤ} (h : b.clear which = .ok b') :
    ∃ i : Fin n, which = (i : ℕ) ∧ b' = b.clearBit i := by
  unfold clear at h
  split_ifs at h with hr
  cases h
  exact ⟨⟨which.toNat, by omega⟩, by simp; omega, rfl⟩

theorem clear_error {b : BitMap n} {which : ℤ} {e : Fault} (h : b.clear which = .error e) :
    e = .bitMapRange ∧ ¬ (0 ≤ which ∧ which < n) := by
  unfold clear at h
  split_ifs at h with hr
  cases h
  exact ⟨rfl, hr⟩

@[simp] theorem clear_fin (b : BitMap n) (i : Fin n) :
    b.clear ((i : ℕ) : ℤ) = .ok (b.clearBit i) := by
  have := i.isLt
  rw [clear, if_pos (by omega), Int.toNat_natCast]

/-! ### The clear bits in order -/

/-- The clear bits, from the least on. -/
def clearBits (b : BitMap n) : List (Fin n) := (List.finRange n).filter fun i : Fin n => !b.isSet i

theorem numClear_eq (b : BitMap n) : b.numClear = b.clearBits.length := rfl

@[simp] theorem mem_clearBits {b : BitMap n} {i : Fin n} :
    i ∈ b.clearBits ↔ b.isSet i = false := by
  simp [clearBits]

theorem mem_map_clearBits {b : BitMap n} {i : ℕ} (hi : i < n) :
    i ∈ b.clearBits.map Fin.val ↔ b.isSet i = false := by
  rw [← mem_clearBits (i := ⟨i, hi⟩), List.mem_map]
  refine ⟨?_, fun h => ⟨_, h, rfl⟩⟩
  rintro ⟨j, hj, rfl⟩
  exact hj

@[simp] theorem mark_fin (b : BitMap n) (i : Fin n) :
    b.mark ((i : ℕ) : ℤ) = .ok (b.setBit i) := by
  have := i.isLt
  rw [mark, if_pos (by omega), Int.toNat_natCast]

theorem nodup_clearBits (b : BitMap n) : b.clearBits.Nodup :=
  (List.nodup_finRange n).filter _

theorem clearBits_congr {b b' : BitMap n} (h : ∀ i : Fin n, b.isSet i = b'.isSet i) :
    b.clearBits = b'.clearBits :=
  List.filter_congr fun i _ => by rw [h i]

/-- `Find` takes the first of the clear bits. -/
theorem find_clearBits {b : BitMap n} {i : Fin n} {l : List (Fin n)} (h : b.clearBits = i :: l) :
    b.find = (some i, b.setBit i) ∧ (b.setBit i).clearBits = l := by
  have hi : i ∉ l := by
    have hnd := b.nodup_clearBits
    rw [h] at hnd
    exact (List.nodup_cons.1 hnd).1
  constructor
  · have hfind : (List.finRange n).find? (fun i : Fin n => !b.isSet i) = some i := by
      rw [← List.head?_filter]
      exact congrArg List.head? h
    unfold find
    rw [hfind]
  · have hfilter : (b.setBit i).clearBits = b.clearBits.filter fun j => decide (j ≠ i) := by
      unfold clearBits
      rw [List.filter_filter]
      refine List.filter_congr fun j _ => ?_
      by_cases hj : j = i
      · simp [hj]
      · have hj' : (i : ℕ) ≠ j := fun he => hj (Fin.ext he.symm)
        simp [hj, hj']
    rw [hfilter, h, List.filter_cons_of_neg (by simp)]
    refine List.filter_eq_self.2 fun j hj => ?_
    exact decide_eq_true fun he => hi (he ▸ hj)

/-- All bits are clear after the constructor. -/
theorem clearBits_new (words : ℕ → BitVec 32) :
    (new n words).clearBits.map Fin.val = List.range' 0 n := by
  have hall : (new n words).clearBits = List.finRange n :=
    List.filter_eq_self.2 fun i _ => by rw [isSet_new words i.isLt]; rfl
  rw [hall, List.map_coe_finRange_eq_range, List.range_eq_range']

/-- The first clear bit is set. -/
theorem clearBits_setBit_first {b : BitMap n} {a m : ℕ}
    (h : b.clearBits.map Fin.val = List.range' a (m + 1)) :
    (b.setBit a).clearBits.map Fin.val = List.range' (a + 1) m := by
  rw [List.range'_succ] at h
  cases hc : b.clearBits with
  | nil =>
    rw [hc] at h
    cases h
  | cons i l =>
    rw [hc, List.map_cons] at h
    obtain ⟨hi, hl⟩ := List.cons.inj h
    rw [← hi, (find_clearBits hc).2]
    exact hi ▸ hl

/-- `Find` returns `-1` when there is no clear bit. -/
theorem find_clearBits_nil {b : BitMap n} (h : b.clearBits = []) : b.find = (none, b) := by
  have hfind : (List.finRange n).find? (fun i : Fin n => !b.isSet i) = none := by
    rw [← List.head?_filter]
    exact congrArg List.head? h
  unfold find
  rw [hfind]

end BitMap

end Nachos
