import Nachos.Lib.Effect
import Nachos.Userprog.Syscall

/-!
# Copying between user memory and the kernel

The loops over `SafeReadMem` and `SafeWriteMem` in the handlers.  Besides the memory they change
only what a page fault changes: `RaiseException` writes `BadVAddrReg` and completes the delayed
load.  There is none pending when a system call starts, since its own `RaiseException` has
completed it.
-/

namespace Nachos

open Fallible Function

variable {c : Sizes}

/-- No load is pending. -/
def Registers.Settled (r : Registers) : Prop := r LoadReg = 0

/-- The registers that a page fault may change when no load is pending. -/
def faultRegisters : List (Fin NumTotalRegs) := [0, LoadReg, LoadValueReg, BadVAddrReg]

/-- Only the memory and, by page faults, some registers and the mode differ. -/
structure Copied (k k' : SysState c) : Prop where
  rest : k' = { k with vm := k'.vm, registers := k'.registers, status := k'.status }
  settled : k.registers.Settled → k'.registers.Settled
  registers : k.registers.Settled → ∀ num, num ∉ faultRegisters →
    k'.registers num = k.registers num

namespace Copied

variable {k k' k'' : SysState c}

theorem refl (k : SysState c) : Copied k k := ⟨rfl, id, fun _ _ _ => rfl⟩

theorem trans (h : Copied k k') (h' : Copied k' k'') : Copied k k'' where
  rest := by
    rw [h'.rest, h.rest]
  settled hs := h'.settled (h.settled hs)
  registers hs num hnum := (h'.registers (h.settled hs) num hnum).trans (h.registers hs num hnum)

theorem of_vm (k : SysState c) (vm : VM c) : Copied k { k with vm := vm } :=
  ⟨rfl, id, fun _ _ _ => rfl⟩

section bind

variable {α β : Type} {m : Sys c α} {f : α → Sys c β}

theorem bind (hm : Effect Copied m) (hf : ∀ a, Effect Copied (f a)) : Effect Copied (m >>= f) :=
  .bind (fun _ _ _ h h' => h.trans h') hm hf

theorem pure (a : α) : Effect (Copied (c := c)) (pure a : Sys c α) := .pure refl a

end bind

theorem orFault {α : Type} (r : Except Fault α) :
    Effect (Copied (c := c)) (Nachos.orFault r : Sys c α) := by
  cases r with
  | error e => exact .throw _
  | ok a => exact Copied.pure a

end Copied

/-- The delayed load of a page fault, when none is pending. -/
theorem delayedLoad_settled {r : Registers} (hs : r.Settled) (badVAddr : BitVec 32) :
    ∃ r', Registers.delayedLoad 0 0 (update r BadVAddrReg badVAddr) = .ok r' ∧
      r'.Settled ∧ ∀ num, num ∉ faultRegisters → r' num = r num := by
  have hload : update r BadVAddrReg badVAddr LoadReg = 0 :=
    (update_of_ne (by decide) ..).trans hs
  unfold Registers.delayedLoad
  rw [dif_pos (by rw [hload]; decide)]
  refine ⟨_, rfl, ?_, fun num hnum => ?_⟩
  · unfold Registers.Settled
    rw [update_of_ne (by decide), update_of_ne (by decide),
      update_self]
  · simp only [faultRegisters, List.mem_cons, List.not_mem_nil, or_false, not_or] at hnum
    obtain ⟨h0, h1, h2, h3⟩ := hnum
    have hzero : num ≠ ⟨(update r BadVAddrReg badVAddr LoadReg).toNat, by
        rw [hload]; decide⟩ := by
      intro heq
      refine h0 (Fin.ext ?_)
      rw [heq]
      simp [hload]
    rw [update_of_ne h0, update_of_ne h2, update_of_ne h1,
      update_of_ne hzero, update_of_ne h3]

/-- What a page fault does to the registers, in code that returns. -/
theorem raised_copied (badVAddr : BitVec 32) :
    Effect Copied (raised badVAddr : Sys c Unit) := by
  intro k u k' h
  obtain ⟨r, hr, rfl⟩ := raised_eq_ok.1 h
  refine ⟨rfl, fun hs => ?_, fun hs num hnum => ?_⟩
  · obtain ⟨r', heq, hset, -⟩ := delayedLoad_settled hs badVAddr
    rw [hr] at heq
    cases heq
    exact hset
  · obtain ⟨r', heq, -, hsame⟩ := delayedLoad_settled hs badVAddr
    rw [hr] at heq
    cases heq
    exact hsame num hnum

theorem sysReadMem_copied (fuel : ℕ) (addr : BitVec 32) :
    Effect Copied (sysReadMem fuel addr : Sys c _) := by
  unfold sysReadMem
  refine Copied.bind (.get Copied.refl) fun k => Copied.bind (Copied.orFault _) fun _ =>
    Copied.bind (.modify fun k => Copied.of_vm k _) fun _ => ?_
  split_ifs
  · exact Copied.bind (raised_copied addr) fun _ => Copied.pure _
  · exact Copied.bind (Copied.pure _) fun _ => Copied.pure _

theorem sysWriteMem_copied (fuel : ℕ) (addr value : BitVec 32) :
    Effect Copied (sysWriteMem fuel addr value : Sys c Unit) := by
  unfold sysWriteMem
  refine Copied.bind (.get Copied.refl) fun k => Copied.bind (Copied.orFault _) fun _ =>
    Copied.bind (.modify fun k => Copied.of_vm k _) fun _ => ?_
  split_ifs
  · exact raised_copied addr
  · exact Copied.pure _

theorem readString_copied (fuel room : ℕ) (r4 : BitVec 32) :
    Effect Copied (readString fuel room r4 : Sys c _) := by
  induction room generalizing r4 with
  | zero => exact .throw _
  | succ room ih =>
    refine Copied.bind (sysReadMem_copied fuel r4) fun value => ?_
    split_ifs
    · exact Copied.pure _
    · exact Copied.bind (ih (r4 + 1)) fun _ => Copied.pure _

theorem readBytes_copied (fuel n : ℕ) (r4 : BitVec 32) :
    Effect Copied (readBytes fuel n r4 : Sys c _) := by
  induction n generalizing r4 with
  | zero => exact Copied.pure _
  | succ n ih =>
    exact Copied.bind (sysReadMem_copied fuel r4) fun value =>
      Copied.bind (ih (r4 + 1)) fun _ => Copied.pure _

/-- The end of a handler changes the program counters and nothing else. -/
theorem returnFromSystemCall_run (k : SysState c) :
    ∃ k', returnFromSystemCall k = .ok ((), k') ∧ k'.registers 2 = k.registers 2 ∧
      k' = { k with registers := k'.registers } := by
  refine ⟨_, rfl, ?_, rfl⟩
  dsimp only
  rw [update_of_ne (by decide), update_of_ne (by decide),
    update_of_ne (by decide)]

/-! ### The arrays of `Read` and `Write` -/

/-- The array can be made when its length is an `int`. -/
theorem bufferSize_nat {size : BitVec 32} {n : ℕ} (hn : size.toInt = n) :
    bufferSize size = if n + 1 < 2 ^ 31 then .ok n else .error .wildAccess := by
  have hnat : size.toNat = n := by
    have hlt := size.isLt
    rw [BitVec.toInt_eq_toNat_cond] at hn
    split_ifs at hn <;> omega
  unfold bufferSize
  rw [hn, hnat]
  split_ifs
  · rfl
  · omega
  · omega
  · rfl

theorem bufferSize_lt {size : BitVec 32} {n : ℕ} (h : bufferSize size = .ok n) :
    n + 1 < 2 ^ 31 := by
  unfold bufferSize at h
  split_ifs at h with hr
  cases h
  have hlt := size.isLt
  rw [BitVec.toInt_eq_toNat_cond] at hr
  split_ifs at hr <;> omega

/-- The string in an array that ends with a NUL. -/
theorem cString_zero (bytes : List Byte) :
    cString (bytes ++ [0]) = .ok (bytes.takeWhile (· ≠ 0)) := by
  unfold cString
  rw [if_pos (by simp)]
  congr 1
  induction bytes with
  | nil => rfl
  | cons b bytes ih =>
    rw [List.cons_append, List.takeWhile_cons, List.takeWhile_cons, ih]

section Read

variable {w : World c} {fuel : ℕ} {k : SysState c}

/-- `Nachos_Read` up to the `switch`. -/
theorem nachosRead_sized {size : ℕ} (hsize : bufferSize (k.registers 5) = .ok size) :
    nachosRead w fuel k = (do
      match (k.registers 6).toInt with
      | 0 => readConsole w fuel (k.registers 4) size
      | 1 | 2 => pure ()
      | _ => readFile w fuel (k.registers 4) size (k.registers 6).toInt
      returnFromSystemCall : Sys c Unit) k := by
  unfold nachosRead
  rw [bind_run (m := readRegister 4) (a := k.registers 4) rfl,
    bind_run (m := readRegister 5) (a := k.registers 5) rfl, hsize]
  rfl

theorem nachosRead_unsized (hsize : ¬ ∃ n, bufferSize (k.registers 5) = .ok n) :
    nachosRead w fuel k = .error (.fault .wildAccess) := by
  have herr : bufferSize (k.registers 5) = .error .wildAccess := by
    unfold bufferSize at hsize ⊢
    split_ifs at hsize ⊢ with h
    · exact absurd ⟨_, rfl⟩ hsize
    · rfl
  unfold nachosRead
  rw [bind_run (m := readRegister 4) (a := k.registers 4) rfl,
    bind_run (m := readRegister 5) (a := k.registers 5) rfl, herr]
  rfl

theorem getchars_length (w : World c) (n : ℕ) {k k' : SysState c} {chars : List Byte}
    (h : getchars w n k = .ok (chars, k')) : chars.length = n := by
  induction n generalizing k k' chars with
  | zero =>
    cases h
    rfl
  | succ n ih =>
    obtain ⟨m, k₁, -, h⟩ := bind_eq_ok.1 h
    obtain ⟨rest, k₂, hrest, h⟩ := bind_eq_ok.1 h
    cases h
    rw [List.length_cons, ih hrest]

end Read

end Nachos
