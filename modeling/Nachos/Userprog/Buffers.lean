import Nachos.Lib.Effect
import Nachos.Userprog.ProgramCounter

/-!
# The kernel buffers of the system calls

`Nachos_Open`, `Nachos_Create` and `Nachos_Exec` copy a string from user memory until its
terminating 0 into arrays of 128, 256 and 256 bytes; `Nachos_Read` and `Nachos_Write` declare
`char buffer[size+1] = {0}` for the size that the user gives.

* `copyString` is the copying loop with an array of a given length; it says whether a byte was
  stored outside.  `readString_iff` connects it with the handlers.
* The arrays of `Read` and `Write` have `(size+1)` bytes in the arithmetic of `int`; the initialiser
  stores their first byte, whatever the length.  `doWhileSubscripts` and `whileSubscripts` are the
  subscripts of the two loops.
* `copies_inside_iff`: for each of the five calls, the arguments with which it stays inside.
-/

namespace Nachos

open Fallible

variable {c : Sizes}

/-! ### Strings -/

/-- `do { SafeReadMem(r4, 1, &c); r4++; name[i++] = c; } while (c != 0)` with room for so many
bytes more; `none` when a byte was stored outside the array. -/
def copyString (fuel : ℕ) : ℕ → BitVec 32 → Sys c (Option (List Byte))
  | 0, r4 => do
    let _ ← sysReadMem fuel r4
    return none
  | room + 1, r4 => do
    let value ← sysReadMem fuel r4
    if value = 0 then return some []
    let rest ← copyString fuel room (r4 + 1)
    return rest.map (value.setWidth 8 :: ·)

/-- User memory at `r4`, as `SafeReadMem` reads it, has no 0 among its first `room` bytes, and one
byte more can be read. -/
def Unterminated (fuel room : ℕ) (r4 : BitVec 32) (k : SysState c) : Prop :=
  ∃ bytes k', readBytes fuel (room + 1) r4 k = .ok (bytes, k') ∧ ∀ b ∈ bytes.take room, b ≠ 0

/-- A byte that was read is sign extended. -/
theorem readMem_byte {addr value : BitVec 32} {s s' : VM c}
    (h : readMem addr 1 s = .ok (some value, s')) : ∃ b : Byte, value = b.signExtend 32 := by
  unfold readMem at h
  cases ht : translate addr 1 false s with
  | error e =>
    rw [ht] at h
    cases h
  | ok p =>
    obtain ⟨o, s₁⟩ := p
    rw [ht] at h
    cases o with
    | error exception =>
      cases hx : raiseException exception addr s₁ with
      | error e => simp [hx, bind, Except.bind] at h
      | ok s₂ => simp [hx, bind, Except.bind, pure, Except.pure] at h
    | ok physAddr =>
      simp only [bind, Except.bind, pure, Except.pure, readValue, Except.ok.injEq, Prod.mk.injEq,
        Option.some.injEq] at h
      exact ⟨_, h.1.symm⟩

theorem safeReadMem_byte {addr value : BitVec 32} {fuel : ℕ} {s s' : VM c}
    (h : safeReadMem addr 1 fuel s = .ok (value, s')) : ∃ b : Byte, value = b.signExtend 32 := by
  induction fuel generalizing s with
  | zero => cases h
  | succ fuel ih =>
    unfold safeReadMem at h
    cases hr : readMem addr 1 s with
    | error e =>
      rw [hr] at h
      cases h
    | ok p =>
      obtain ⟨o, s₁⟩ := p
      rw [hr] at h
      cases o with
      | none => exact ih h
      | some v =>
        cases h
        exact readMem_byte hr

theorem setWidth_signExtend_byte (b : Byte) : (b.signExtend 32).setWidth 8 = b := by
  rw [← byteOf_zero]
  exact byte_zero_signExtend b

theorem sysReadMem_byte {fuel : ℕ} {addr value : BitVec 32} {k k' : SysState c}
    (h : sysReadMem fuel addr k = .ok (value, k')) : value = 0 ↔ value.setWidth 8 = (0 : Byte) := by
  unfold sysReadMem at h
  obtain ⟨_, k₁, hget, h⟩ := bind_eq_ok.1 h
  cases hget
  obtain ⟨⟨v, vm⟩, k₂, hread, h⟩ := bind_eq_ok.1 h
  have hv : v = value := by
    obtain ⟨_, k₃, -, h⟩ := bind_eq_ok.1 h
    split_ifs at h
    · obtain ⟨_, k₄, -, h⟩ := bind_eq_ok.1 h
      cases h
      rfl
    · cases h
      rfl
  cases hs : safeReadMem addr 1 fuel k.vm with
  | error e =>
    rw [hs] at hread
    cases hread
  | ok p =>
    rw [hs] at hread
    cases hread
    obtain ⟨b, rfl⟩ := safeReadMem_byte hs
    subst hv
    constructor
    · intro h0
      rw [h0]
      rfl
    · intro h0
      have hb : b = 0 := by
        rw [← h0, setWidth_signExtend_byte]
      rw [hb]
      rfl

/-- **The loop stores outside the array exactly when the string does not end inside it.** -/
theorem copyString_none_iff {fuel room : ℕ} {r4 : BitVec 32} {k : SysState c} :
    (∃ k', copyString fuel room r4 k = .ok (none, k')) ↔ Unterminated fuel room r4 k := by
  unfold Unterminated
  induction room generalizing r4 k with
  | zero =>
    constructor
    · rintro ⟨k', h⟩
      obtain ⟨value, k₁, hread, -⟩ := bind_eq_ok.1 h
      exact ⟨[value.setWidth 8], k₁, bind_eq_ok.2 ⟨value, k₁, hread, rfl⟩, by simp⟩
    · rintro ⟨bytes, k', h, -⟩
      obtain ⟨value, k₁, hread, -⟩ := bind_eq_ok.1 h
      exact ⟨k₁, bind_eq_ok.2 ⟨value, k₁, hread, rfl⟩⟩
  | succ room ih =>
    constructor
    · rintro ⟨k', h⟩
      obtain ⟨value, k₁, hread, h⟩ := bind_eq_ok.1 h
      split_ifs at h with h0
      · cases h
      · obtain ⟨rest, k₂, hrest, h⟩ := bind_eq_ok.1 h
        cases rest with
        | some l => cases h
        | none =>
          obtain ⟨bytes, k₃, hbytes, hall⟩ := ih.1 ⟨k₂, hrest⟩
          refine ⟨value.setWidth 8 :: bytes, k₃,
            bind_eq_ok.2 ⟨value, k₁, hread, bind_eq_ok.2 ⟨bytes, k₃, hbytes, rfl⟩⟩, ?_⟩
          rw [List.take_succ_cons, List.forall_mem_cons]
          exact ⟨fun hb => h0 ((sysReadMem_byte hread).2 hb), hall⟩
    · rintro ⟨bytes, k', h, hall⟩
      obtain ⟨value, k₁, hread, h⟩ := bind_eq_ok.1 h
      obtain ⟨rest, k₂, hrest, h⟩ := bind_eq_ok.1 h
      cases h
      rw [List.take_succ_cons, List.forall_mem_cons] at hall
      obtain ⟨k₃, hcopy⟩ := ih.2 ⟨rest, k', hrest, hall.2⟩
      refine ⟨k₃, bind_eq_ok.2 ⟨value, k₁, hread, ?_⟩⟩
      rw [if_neg (fun h0 => hall.1 ((sysReadMem_byte hread).1 h0))]
      exact bind_eq_ok.2 ⟨none, k₃, hcopy, rfl⟩

/-- The handlers go on with the string exactly when the loop has stayed inside. -/
theorem readString_iff {fuel room : ℕ} {r4 : BitVec 32} {k k' : SysState c} {s : List Byte} :
    readString fuel room r4 k = .ok (s, k') ↔ copyString fuel room r4 k = .ok (some s, k') := by
  induction room generalizing r4 k s with
  | zero =>
    refine iff_of_false (fun h => by cases h) fun h => ?_
    obtain ⟨value, k₁, -, h⟩ := bind_eq_ok.1 h
    cases h
  | succ room ih =>
    constructor
    · intro h
      obtain ⟨value, k₁, hread, h⟩ := bind_eq_ok.1 h
      refine bind_eq_ok.2 ⟨value, k₁, hread, ?_⟩
      split_ifs at h ⊢
      · cases h
        rfl
      · obtain ⟨rest, k₂, hrest, h⟩ := bind_eq_ok.1 h
        cases h
        exact bind_eq_ok.2 ⟨some rest, k', ih.1 hrest, rfl⟩
    · intro h
      obtain ⟨value, k₁, hread, h⟩ := bind_eq_ok.1 h
      refine bind_eq_ok.2 ⟨value, k₁, hread, ?_⟩
      split_ifs at h ⊢
      · cases h
        rfl
      · obtain ⟨rest, k₂, hrest, h⟩ := bind_eq_ok.1 h
        cases rest with
        | none => cases h
        | some l =>
          cases h
          exact bind_eq_ok.2 ⟨l, k', ih.2 hrest, rfl⟩

/-! ### Buffers of `size+1` bytes -/

/-- The length of `char buffer[size+1]`, in `int` arithmetic. -/
def bufferLength (size : BitVec 32) : ℤ := (size + 1).toInt

/-- The subscripts of `do { buffer[i++] = c; } while (i < size)` from `i` on. -/
def doWhileSubscripts (size : ℤ) (i : ℕ) : List ℕ :=
  i :: if ((i + 1 : ℕ) : ℤ) < size then doWhileSubscripts size (i + 1) else []
termination_by (size - i).toNat

/-- The subscripts of `while (count < size) { buffer[count] = t; ++count; }` from `count` on. -/
def whileSubscripts (size : ℤ) (count : ℕ) : List ℕ :=
  if (count : ℤ) < size then count :: whileSubscripts size (count + 1) else []
termination_by (size - count).toNat

theorem mem_doWhileSubscripts {size : ℤ} {i j : ℕ} :
    j ∈ doWhileSubscripts size i ↔ j = i ∨ i ≤ j ∧ (j : ℤ) < size := by
  induction i using doWhileSubscripts.induct size with
  | case1 i ih =>
    rw [doWhileSubscripts, List.mem_cons]
    split_ifs with hlt
    · rw [ih hlt]
      omega
    · simp only [List.not_mem_nil, or_false]
      omega

theorem mem_whileSubscripts {size : ℤ} {i j : ℕ} :
    j ∈ whileSubscripts size i ↔ i ≤ j ∧ (j : ℤ) < size := by
  induction i using whileSubscripts.induct size with
  | case1 i hlt ih =>
    rw [whileSubscripts, if_pos hlt, List.mem_cons, ih]
    omega
  | case2 i hge =>
    rw [whileSubscripts, if_neg hge]
    simp only [List.not_mem_nil, false_iff]
    omega

/-- Where `Nachos_Write` stores in `buffer`: the initialiser, and the loop. -/
def writeStores (size : BitVec 32) : List ℕ := 0 :: doWhileSubscripts size.toInt 0

/-- Where `Nachos_Read` stores in `bufferReader`: the initialiser, and the loop over `getchar`, or
the bytes that `read` delivers. -/
def readStores (w : World c) (k : SysState c) : List ℕ :=
  let fileId := (k.registers 6).toInt
  0 :: match fileId with
    | 0 => whileSubscripts (k.registers 5).toInt 0
    | 1 | 2 => []
    | _ =>
      if k.mytable.isOpened fileId then
        match w.unixRead k.calls (k.mytable.getUnixHandle fileId) (k.registers 5).toNat with
        | some bytes => List.range bytes.length
        | none => []
      else []

/-- `read` delivers no more than it is asked for. -/
def World.ReadsAtMost (w : World c) : Prop :=
  ∀ n fd size bytes, w.unixRead n fd size = some bytes → bytes.length ≤ size

/-- The size leaves an array of at least one byte. -/
theorem bufferLength_pos_iff (size : BitVec 32) :
    0 < bufferLength size ↔ 0 ≤ size.toInt ∧ size.toInt < 2 ^ 31 - 1 := by
  have hlt := size.isLt
  unfold bufferLength
  simp only [BitVec.toInt_eq_toNat_cond, BitVec.toNat_add]
  have h1 : (1 : BitVec 32).toNat = 1 := rfl
  rw [h1]
  split_ifs <;> omega

theorem bufferLength_eq {size : BitVec 32} (h : 0 ≤ size.toInt ∧ size.toInt < 2 ^ 31 - 1) :
    bufferLength size = size.toNat + 1 ∧ size.toInt = size.toNat := by
  have hlt := size.isLt
  unfold bufferLength
  simp only [BitVec.toInt_eq_toNat_cond, BitVec.toNat_add] at h ⊢
  have h1 : (1 : BitVec 32).toNat = 1 := rfl
  rw [h1]
  split_ifs at h ⊢ <;> omega

/-- The handlers go on with the arguments that leave an array. -/
theorem bufferSize_ok_iff (size : BitVec 32) :
    (∃ n, bufferSize size = .ok n) ↔ 0 < bufferLength size := by
  rw [bufferLength_pos_iff]
  unfold bufferSize
  split_ifs with h
  · exact iff_of_true ⟨_, rfl⟩ (by omega)
  · refine iff_of_false (fun ⟨n, hn⟩ => by cases hn) (by omega)

theorem writeStores_inside_iff (size : BitVec 32) :
    (∀ i ∈ writeStores size, (i : ℤ) < bufferLength size) ↔
      0 ≤ size.toInt ∧ size.toInt < 2 ^ 31 - 1 := by
  unfold writeStores
  rw [← bufferLength_pos_iff, List.forall_mem_cons]
  constructor
  · exact fun h => h.1
  · intro hpos
    refine ⟨hpos, fun i hi => ?_⟩
    obtain ⟨hlen, hsize⟩ := bufferLength_eq ((bufferLength_pos_iff size).1 hpos)
    rcases mem_doWhileSubscripts.1 hi with rfl | ⟨-, hlt⟩
    · exact hpos
    · omega

/-- `Nachos_Read` stores as many bytes as the size says at most, after the initialiser. -/
theorem mem_readStores {w : World c} (hw : w.ReadsAtMost) {k : SysState c} {i : ℕ}
    (hi : i ∈ readStores w k) (hsize : 0 ≤ (k.registers 5).toInt) :
    i = 0 ∨ (i : ℤ) < (k.registers 5).toInt := by
  have hnat : (k.registers 5).toInt = (k.registers 5).toNat := by
    have hlt := (k.registers 5).isLt
    rw [BitVec.toInt_eq_toNat_cond] at hsize ⊢
    split_ifs at hsize ⊢ <;> omega
  rcases List.mem_cons.1 hi with h0 | hi
  · exact Or.inl h0
  · refine Or.inr ?_
    split at hi
    · exact (mem_whileSubscripts.1 hi).2
    · cases hi
    · cases hi
    · split_ifs at hi
      · split at hi
        · rename_i bytes hread
          have hle := hw _ _ _ _ hread
          have := List.mem_range.1 hi
          omega
        · cases hi
      · cases hi

theorem readStores_inside_iff {w : World c} (hw : w.ReadsAtMost) (k : SysState c) :
    (∀ i ∈ readStores w k, (i : ℤ) < bufferLength (k.registers 5)) ↔
      0 ≤ (k.registers 5).toInt ∧ (k.registers 5).toInt < 2 ^ 31 - 1 := by
  constructor
  · intro h
    rw [← bufferLength_pos_iff]
    exact h 0 List.mem_cons_self
  · intro hrange i hi
    obtain ⟨hlen, hsize⟩ := bufferLength_eq hrange
    rcases mem_readStores hw hi hrange.1 with rfl | hlt <;> omega

/-! ### The five calls -/

/-- The call stores nothing outside its array. -/
def StaysInside (w : World c) (fuel : ℕ) (k : SysState c) : SysCall → Prop
  | .Open => ¬ ∃ k', copyString fuel 128 (k.registers 4) k = .ok (none, k')
  | .Create => ¬ ∃ k', copyString fuel 256 (k.registers 4) k = .ok (none, k')
  | .Exec => ¬ ∃ k', copyString fuel 256 (k.registers 4) k = .ok (none, k')
  | .Read => ∀ i ∈ readStores w k, (i : ℤ) < bufferLength (k.registers 5)
  | .Write => ∀ i ∈ writeStores (k.registers 5), (i : ℤ) < bufferLength (k.registers 5)
  | _ => True

/-- The string ends in time, and the size is that of an array. -/
def FitsBuffer (fuel : ℕ) (k : SysState c) : SysCall → Prop
  | .Open => ¬ Unterminated fuel 128 (k.registers 4) k
  | .Create => ¬ Unterminated fuel 256 (k.registers 4) k
  | .Exec => ¬ Unterminated fuel 256 (k.registers 4) k
  | .Read => 0 ≤ (k.registers 5).toInt ∧ (k.registers 5).toInt < 2 ^ 31 - 1
  | .Write => 0 ≤ (k.registers 5).toInt ∧ (k.registers 5).toInt < 2 ^ 31 - 1
  | _ => True

/-- **The calls stay inside their buffers exactly when the string and the size fit.** -/
theorem copies_inside_iff {w : World c} (hw : w.ReadsAtMost) (fuel : ℕ) (k : SysState c)
    (sc : SysCall) : StaysInside w fuel k sc ↔ FitsBuffer fuel k sc := by
  cases sc with
  | Open | Create | Exec => exact not_congr copyString_none_iff
  | Read => exact readStores_inside_iff hw k
  | Write => exact writeStores_inside_iff (k.registers 5)
  | _ => exact Iff.rfl

theorem copies_inside_callsWrite : StaysInside quiet 2 (callsWrite 1) .Write :=
  (copies_inside_iff (w := quiet) (fun _ _ _ _ h => by cases h) 2 (callsWrite 1) .Write).2
    (by unfold FitsBuffer; decide)

/-- An object file with 256 bytes of code, all 7. -/
def longNoff : File where
  length := 300
  byte k := [0xad, 0xdf, 0xba, 0,
    0, 0, 0, 0, 40, 0, 0, 0, 0, 1, 0, 0,
    0, 1, 0, 0, 0x28, 1, 0, 0, 4, 0, 0, 0,
    4, 1, 0, 0, 0, 0, 0, 0, 120, 0, 0, 0].getD k 7

/-- A program of `longNoff` calls with the address 0 in `r4` and the given size in `r5`. -/
def callsLong (size : BitVec 32) : SysState machineH :=
  { callsWrite 1 with
    registers := fun i => if i = 5 then size else 0
    vm := { restoreState zeroTLB
        ((boot (fun _ => some longNoff) (some (File.ofList [])) (fun _ => 0) (fun _ => 0)
          zeroTLB).addSpace (.ofHeader longNoff.noffHeader "sort") freshEntry) with
      current := some 0 } }

/-- `Open` with a string of more than 128 bytes, and `Write` with size -1. -/
theorem copies_outside : ¬ StaysInside quiet 2 (callsLong 0) .Open ∧
    ¬ StaysInside quiet 2 (callsLong (-1)) .Write := by
  constructor
  · obtain ⟨⟨_, k'⟩, hk, rfl⟩ := Fallible.exists_ok (copyString 2 128 0 (callsLong 0))
      (fun p => p.1 = none) (by decide +kernel)
    exact not_not.2 ⟨k', hk⟩
  · intro h
    exact absurd (h 0 List.mem_cons_self) (by decide)

end Nachos
