import Mathlib.Data.Nat.Notation
import Mathlib.Tactic.Common

/-!
# Memory as bytes

Memory seen from a pointer is a function from offsets to bytes.  Words have 32 bits and are stored
with the least significant byte first.

* `word_ofWords`: an array of words, as bytes and back.
* `copy`: copying bytes.
-/

namespace ByteMemory

/-- Memory from a pointer on. -/
abbrev Mem := ℕ → BitVec 8

/-- Byte `k` of a word. -/
def byteOf (value : BitVec 32) (k : ℕ) : BitVec 8 := value.extractLsb' (8 * k) 8

/-- The word at an offset. -/
def word (mem : Mem) (offset : ℕ) : BitVec 32 :=
  mem (offset + 3) ++ mem (offset + 2) ++ mem (offset + 1) ++ mem offset

/-- An array of words. -/
def ofWords (words : ℕ → BitVec 32) : Mem := fun k => byteOf (words (k / 4)) (k % 4)

/-- Words with the same bytes. -/
theorem word_congr {mem mem' : Mem} {offset offset' : ℕ}
    (h : ∀ k < 4, mem (offset + k) = mem' (offset' + k)) : word mem offset = word mem' offset' := by
  have h0 : mem offset = mem' offset' := h 0 (by decide)
  unfold word
  rw [h 3 (by decide), h 2 (by decide), h 1 (by decide), h0]

/-- A word is put together from its bytes. -/
theorem word_bytes {mem : Mem} {offset : ℕ} {value : BitVec 32}
    (h : ∀ k < 4, mem (offset + k) = byteOf value k) : word mem offset = value := by
  have h0 : mem offset = byteOf value 0 := h 0 (by decide)
  unfold word
  rw [h 3 (by decide), h 2 (by decide), h 1 (by decide), h0]
  apply BitVec.eq_of_getLsbD_eq
  intro i hi
  simp only [byteOf, BitVec.getLsbD_append, BitVec.getLsbD_extractLsb']
  by_cases h8 : i < 8
  · simp [h8]
  by_cases h16 : i < 16
  · simp [h8, show i - 8 < 8 by omega]
    congr 1
    omega
  by_cases h24 : i < 24
  · simp [h8, show ¬ i - 8 < 8 by omega, show i - 8 - 8 < 8 by omega]
    congr 1
    omega
  · simp [h8, show ¬ i - 8 < 8 by omega, show ¬ i - 8 - 8 < 8 by omega,
      show i - 8 - 8 - 8 < 8 by omega]
    congr 1
    omega

/-- A word of which the least significant byte changes. -/
theorem word_low {mem mem' : Mem} {offset : ℕ}
    (h : ∀ k, 1 ≤ k → k < 4 → mem' (offset + k) = mem (offset + k)) :
    word mem' offset = (word mem offset).extractLsb' 8 24 ++ mem' offset := by
  unfold word
  rw [h 3 (by decide) (by decide), h 2 (by decide) (by decide), h 1 (by decide) (by decide),
    BitVec.extractLsb'_append_eq_left]

/-- An array of words is read back from its bytes. -/
theorem word_ofWords (words : ℕ → BitVec 32) (j : ℕ) : word (ofWords words) (4 * j) = words j := by
  refine word_bytes fun k hk => ?_
  unfold ofWords
  rw [show (4 * j + k) / 4 = j by omega, show (4 * j + k) % 4 = k by omega]

/-- Copy `n` bytes to an offset. -/
def copy (src : Mem) (n : ℕ) (dst : Mem) (offset : ℕ) : Mem := fun k =>
  if offset ≤ k ∧ k < offset + n then src (k - offset) else dst k

theorem copy_of_mem {src dst : Mem} {n offset k : ℕ} (h : offset ≤ k) (h' : k < offset + n) :
    copy src n dst offset k = src (k - offset) := if_pos ⟨h, h'⟩

theorem copy_of_not_mem {src dst : Mem} {n offset k : ℕ} (h : k < offset ∨ offset + n ≤ k) :
    copy src n dst offset k = dst k := if_neg (by omega)

@[simp] theorem copy_zero (src dst : Mem) (offset : ℕ) : copy src 0 dst offset = dst := by
  funext k
  exact copy_of_not_mem (by omega)

theorem copy_congr {src src' dst : Mem} {n offset : ℕ} (h : ∀ k < n, src k = src' k) :
    copy src n dst offset = copy src' n dst offset := by
  funext k
  unfold copy
  split_ifs with hk
  · exact h _ (by omega)
  · rfl

end ByteMemory
