import Nachos.Userprog.Effects
import Nachos.VM.Run

/-!
# System calls and the program counter

What a system call that returns has done to `PrevPC`, `PC` and `NextPC`.

* Everything before `returnFromSystemCall` leaves them alone (`SamePC`): a context switch restores
  them, and the delayed load of a page fault goes to a general register.
* All exits of all handlers call `returnFromSystemCall` once, but for two: `Nachos_Write` when the
  file is not open, and `Nachos_Exec` when the table is full.
-/

namespace Nachos

open Fallible Function

variable {c : Sizes}

/-! ### The program counters -/

/-- `PrevPC`, `PC` and `NextPC`. -/
def Registers.pcs (r : Registers) : BitVec 32 × BitVec 32 × BitVec 32 :=
  (r PrevPCReg, r PCReg, r NextPCReg)

/-- `LoadReg` holds the number of a general register. -/
def Registers.LoadsGP (r : Registers) : Prop := (r LoadReg).toNat < NumGPRegs

/-- The program counters of `k'` are those of `k`. -/
def SamePC (k k' : SysState c) : Prop :=
  k.registers.LoadsGP → k'.registers.LoadsGP ∧ k'.registers.pcs = k.registers.pcs

/-- `PrevPC` holds the old `PC`, `PC` the old `NextPC`, and `NextPC` the old `NextPC` plus 4. -/
def Advanced (k k' : SysState c) : Prop :=
  k'.registers PrevPCReg = k.registers PCReg ∧ k'.registers PCReg = k.registers NextPCReg ∧
    k'.registers NextPCReg = k.registers NextPCReg + 4

/-- The program counters have advanced once. -/
def Advances (k k' : SysState c) : Prop :=
  k.registers.LoadsGP → k'.registers.LoadsGP ∧ Advanced k k'

theorem SamePC.of_registers {k k' : SysState c} (h : k'.registers = k.registers) : SamePC k k' := by
  intro hl
  rw [h]
  exact ⟨hl, rfl⟩

theorem SamePC.trans (k₁ k₂ k₃ : SysState c) (h₁ : SamePC k₁ k₂) (h₂ : SamePC k₂ k₃) :
    SamePC k₁ k₃ := by
  intro hl
  obtain ⟨hl₂, he₂⟩ := h₁ hl
  obtain ⟨hl₃, he₃⟩ := h₂ hl₂
  exact ⟨hl₃, he₃.trans he₂⟩

theorem SamePC.advances (k₁ k₂ k₃ : SysState c) (h₁ : SamePC k₁ k₂) (h₂ : Advances k₂ k₃) :
    Advances k₁ k₃ := by
  intro hl
  obtain ⟨hl₂, he⟩ := h₁ hl
  obtain ⟨hl₃, h⟩ := h₂ hl₂
  simp only [Registers.pcs, Prod.mk.injEq] at he
  exact ⟨hl₃, by simpa only [Advanced, he] using h⟩

/-- A register that is neither a program counter nor `LoadReg` is written. -/
theorem SamePC.update {k k' : SysState c} {num : Fin NumTotalRegs} {value : BitVec 32}
    (h : k'.registers = update k.registers num value)
    (hnum : num ∉ [PCReg, NextPCReg, PrevPCReg, LoadReg]) : SamePC k k' := by
  simp only [List.mem_cons, List.not_mem_nil, or_false, not_or] at hnum
  obtain ⟨h₁, h₂, h₃, h₄⟩ := hnum
  intro hl
  simp only [Registers.LoadsGP, Registers.pcs, h, update_of_ne (Ne.symm h₁),
    update_of_ne (Ne.symm h₂), update_of_ne (Ne.symm h₃),
    update_of_ne (Ne.symm h₄), and_true]
  exact hl

/-- The delayed load goes to a general register. -/
theorem delayedLoad_eq {r r' : Registers} {nextReg nextValue : BitVec 32} (hl : r.LoadsGP)
    (h : r.delayedLoad nextReg nextValue = .ok r') (num : Fin NumTotalRegs)
    (hgp : NumGPRegs ≤ num.val) (h₁ : num ≠ LoadReg) (h₂ : num ≠ LoadValueReg) :
    r' num = r num := by
  unfold Registers.delayedLoad at h
  split_ifs at h with hlt
  cases h
  have h₀ : num ≠ 0 := by
    rintro rfl
    cases hgp
  have h₃ : num ≠ ⟨(r LoadReg).toNat, hlt⟩ := by
    rintro rfl
    exact absurd hl (Nat.not_lt.2 hgp)
  rw [update_of_ne h₀, update_of_ne h₂, update_of_ne h₁,
    update_of_ne h₃]

theorem delayedLoad_loadReg {r r' : Registers} {nextReg nextValue : BitVec 32}
    (h : r.delayedLoad nextReg nextValue = .ok r') : r' LoadReg = nextReg := by
  unfold Registers.delayedLoad at h
  split_ifs at h
  cases h
  rw [update_of_ne (by decide), update_of_ne (by decide), update_self]

/-- A page fault in a handler leaves the program counters alone. -/
theorem SamePC.fault (k k' : SysState c) (badVAddr : BitVec 32)
    (h : Registers.delayedLoad 0 0 (Function.update k.registers BadVAddrReg badVAddr) =
      .ok k'.registers) : SamePC k k' := by
  intro hl
  have hl' : Registers.LoadsGP (Function.update k.registers BadVAddrReg badVAddr) := hl
  refine ⟨?_, ?_⟩
  · simp [Registers.LoadsGP, delayedLoad_loadReg h]
  · simp only [Registers.pcs]
    rw [delayedLoad_eq hl' h PrevPCReg (by decide) (by decide) (by decide),
      delayedLoad_eq hl' h PCReg (by decide) (by decide) (by decide),
      delayedLoad_eq hl' h NextPCReg (by decide) (by decide) (by decide)]
    rfl

/-- `returnFromSystemCall` advances the program counters. -/
theorem returnFromSystemCall_advances : Effect Advances (returnFromSystemCall : Sys c Unit) := by
  intro k u k' h hl
  have hr : k'.registers = update (update (update k.registers
      PrevPCReg (k.registers PCReg)) PCReg (k.registers NextPCReg))
      NextPCReg (k.registers NextPCReg + 4) := by
    cases h
    rfl
  refine ⟨?_, ?_, ?_, ?_⟩
  · unfold Registers.LoadsGP
    rw [hr, update_of_ne (by decide), update_of_ne (by decide),
      update_of_ne (by decide)]
    exact hl
  · rw [hr, update_of_ne (by decide), update_of_ne (by decide),
      update_self]
  · rw [hr, update_of_ne (by decide), update_self]
  · rw [hr, update_self]

/-- The handlers and the program counters. -/
theorem samePC_advances : CallEffect (c := c) SamePC Advances where
  of_registers _ _ := .of_registers
  trans := SamePC.trans
  result _ _ _ h := .update h (by decide)
  fault := SamePC.fault
  returns := SamePC.advances
  ret := returnFromSystemCall_advances

/-- The system call takes an exit without `returnFromSystemCall`: `Exec` when the table is full, or
`Write` to a file that is not open when `Console->P()` has returned. -/
def ForgetsPC (w : World c) (fuel : ℕ) (k : SysState c) : Prop :=
  match SysCall.ofCode (k.registers 2) with
  | some .Exec => TableFull k
  | some .Write => ∃ buffer size id k₁, writeEnter w fuel k = .ok ((buffer, size, id), k₁) ∧
      NotOpen k₁ id
  | _ => False

theorem SamePC.not_advanced {k k' : SysState c} (h : SamePC k k') (hl : k.registers.LoadsGP) :
    ¬ Advanced k k' := by
  rintro ⟨-, -, hnext⟩
  have hsame := (h hl).2
  simp only [Registers.pcs, Prod.mk.injEq] at hsame
  rw [hsame.2.2] at hnext
  bv_omega

theorem advanced_iff {k k' : SysState c} {forgets : Prop} (hl : k.registers.LoadsGP)
    (h : forgets ∧ SamePC k k' ∨ ¬ forgets ∧ Advances k k') : Advanced k k' ↔ ¬ forgets := by
  rcases h with ⟨hf, hpc⟩ | ⟨hf, hpc⟩
  · exact iff_of_false (hpc.not_advanced hl) (not_not_intro hf)
  · exact iff_of_true (hpc hl).2 hf

/-- **A system call that returns has advanced the program counters once**, unless it took one of the
two exits that forget.  `RaiseException` has made `LoadReg` 0 before. -/
theorem syscall_advances_iff (w : World c) (fuel : ℕ) {k k' : SysState c}
    (hl : k.registers.LoadsGP)
    (h : sysExceptionHandler w fuel .syscallException k = .ok ((), k')) :
    Advanced k k' ↔ ¬ ForgetsPC w fuel k := by
  obtain ⟨type, k₁, hread, h⟩ := bind_eq_ok.1 h
  cases hread
  refine advanced_iff hl ?_
  unfold ForgetsPC
  dsimp only at h
  cases hsc : SysCall.ofCode (k.registers 2) with
  | none =>
    rw [hsc] at h
    cases h
  | some sc =>
    rw [hsc] at h
    by_cases hexec : sc = .Exec
    · subst hexec
      exact nachosExec_exits samePC_advances w fuel h
    by_cases hwrite : sc = .Write
    · subst hwrite
      obtain ⟨buffer, size, id, k₁, henter, hpc⟩ := nachosWrite_exits samePC_advances w fuel h
      have hiff : (∃ buffer size id k₁, writeEnter w fuel k = .ok ((buffer, size, id), k₁) ∧
          NotOpen k₁ id) ↔ NotOpen k₁ id := by
        constructor
        · rintro ⟨buffer', size', id', k₁', henter', hno⟩
          rw [henter] at henter'
          cases henter'
          exact hno
        · exact fun hno => ⟨buffer, size, id, k₁, henter, hno⟩
      simpa only [hiff] using hpc
    · have hadv := handler_returns samePC_advances w fuel hexec hwrite k () k' h
      refine Or.inr ⟨?_, hadv⟩
      cases sc <;> simp_all

/-! ### `Write` with and without an open file -/

/-- No other thread does anything, and all UNIX calls fail. -/
def quiet : World c where
  others _ k := some k
  others_userRegisters := by
    rintro n k k' ⟨⟩
    rfl
  getchar _ := 0
  unixOpen _ _ := -1
  unixCreat _ _ := -1
  unixClose _ _ := -1
  unixRead _ _ _ := none
  unixWrite _ _ _ := -1

/-- A program calls `Write` for the byte at address 0 and the file `id`. -/
def callsWrite (id : BitVec 32) : SysState machineH where
  registers i := if i = 2 then 7 else if i = 5 then 1 else if i = 6 then id else
    if i = PCReg then 8 else if i = NextPCReg then 12 else 0
  status := .SystemMode
  vm := smallStart
  currentThread := 0
  userRegisters _ := 0
  space := 0
  mytable := ⟨fun _ => 0, ((BitMap.new _ fun _ => 0).setBit 0 |>.setBit 1).setBit 2, 1⟩
  mySems := ⟨.new _ fun _ => 0, fun _ => none, 1⟩
  semaphores _ := ⟨1, []⟩
  numSemaphores := 1
  numThreads := 1
  execFiles _ := none
  execFilesMap := .new _ fun _ => 0
  numConsoleCharsRead := 0
  numConsoleCharsWritten := 0
  output := []
  calls := 0

theorem callsWrite_loadsGP (id : BitVec 32) : (callsWrite id).registers.LoadsGP := by
  have hload : (callsWrite id).registers LoadReg = 0 := rfl
  unfold Registers.LoadsGP
  rw [hload]
  decide

/-- `Write` to `ConsoleError`. -/
theorem syscall_advances_consoleError : ∃ k', sysExceptionHandler quiet 2 .syscallException
    (callsWrite 2) = .ok ((), k') ∧ k'.output = [.number 0] ∧
      (Advanced (callsWrite 2) k' ↔ ¬ ForgetsPC quiet 2 (callsWrite 2)) := by
  obtain ⟨⟨_, k'⟩, hk, hout⟩ := exists_ok
    (sysExceptionHandler quiet 2 .syscallException (callsWrite 2))
    (fun p => p.2.output = [.number 0]) (by decide +kernel)
  exact ⟨k', hk, hout, syscall_advances_iff quiet 2 (callsWrite_loadsGP 2) hk⟩

/-- `Write` to a file that is not open returns, and the program will make the same call again. -/
theorem write_not_advanced : ∃ k', (callsWrite 5).registers.LoadsGP ∧
    sysExceptionHandler quiet 2 .syscallException (callsWrite 5) = .ok ((), k') ∧
    k'.registers PCReg = (callsWrite 5).registers PCReg ∧ ¬ Advanced (callsWrite 5) k' := by
  obtain ⟨⟨_, k'⟩, hk, hpc, hnext⟩ := exists_ok
    (sysExceptionHandler quiet 2 .syscallException (callsWrite 5))
    (fun p => p.2.registers PCReg = (callsWrite 5).registers PCReg ∧
      p.2.registers NextPCReg ≠ (callsWrite 5).registers NextPCReg + 4) (by decide +kernel)
  exact ⟨k', callsWrite_loadsGP 5, hk, hpc, fun h => hnext h.2.2⟩

end Nachos
