import Nachos.Lib.Effect
import Nachos.Userprog.Syscall

/-!
# What system calls do to the registers

A handler writes r2, serves page faults of its own and lets other threads run; then
`returnFromSystemCall` advances the program counters.  What holds of these parts holds of every
handler.

* `CallEffect R S`: the parts before `returnFromSystemCall` have the effect `R`, and followed by it
  the effect `S`.
* One lemma for each handler; `Nachos_Write` has an exit without `returnFromSystemCall` when the
  file is not open, and `Nachos_Exec` when the table is full.
-/

namespace Nachos

open Fallible

variable {c : Sizes}

/-- Effects that the parts of a handler have, up to `returnFromSystemCall` and with it. -/
structure CallEffect (R S : SysState c → SysState c → Prop) : Prop where
  of_registers : ∀ k k', k'.registers = k.registers → R k k'
  trans : ∀ k₁ k₂ k₃, R k₁ k₂ → R k₂ k₃ → R k₁ k₃
  -- `WriteRegister(2, value)`
  result : ∀ k k' value, k'.registers = Function.update k.registers 2 value → R k k'
  -- a page fault in `SafeReadMem` or `SafeWriteMem`
  fault : ∀ k k' badVAddr, Registers.delayedLoad 0 0
    (Function.update k.registers BadVAddrReg badVAddr) = .ok k'.registers → R k k'
  returns : ∀ k₁ k₂ k₃, R k₁ k₂ → S k₂ k₃ → S k₁ k₃
  ret : Effect S (returnFromSystemCall : Sys c Unit)

namespace CallEffect

variable {R S : SysState c → SysState c → Prop} (he : CallEffect R S)

include he

theorem refl (k : SysState c) : R k k := he.of_registers k k rfl

section

variable {α β : Type} {m : Sys c α} {f : α → Sys c β}

theorem bind (hm : Effect R m) (hf : ∀ a, Effect R (f a)) : Effect R (m >>= f) :=
  .bind he.trans hm hf

theorem comp (hm : Effect R m) (hf : ∀ a, Effect S (f a)) : Effect S (m >>= f) :=
  .comp he.returns hm hf

theorem pure (a : α) : Effect R (pure a : Sys c α) := .pure he.refl a

theorem get : Effect R (get : Sys c (SysState c)) := .get he.refl

theorem modify {g : SysState c → SysState c} (hg : ∀ k, (g k).registers = k.registers) :
    Effect R (modify g : Sys c PUnit) := .modify fun k => he.of_registers k _ (hg k)

theorem modifyGet {g : SysState c → α × SysState c} (hg : ∀ k, (g k).2.registers = k.registers) :
    Effect R (modifyGet g : Sys c α) := by
  intro k a k' h
  have hk : g k = (a, k') := Except.ok.inj h
  exact he.of_registers k k' (by rw [← hg k, hk])

end

theorem writeRegister (value : BitVec 32) : Effect R (writeRegister 2 value : Sys c Unit) :=
  .modify fun k => he.result k _ value rfl

end CallEffect

/-! ### Parts of kernel code -/

variable {k k' : SysState c} {u : Unit} {buffer : List Byte}

/-- A context switch restores the registers. -/
theorem switchOut_registers (w : World c) (h : switchOut w k = .ok (u, k')) :
    k'.registers = k.registers := by
  unfold switchOut at h
  obtain ⟨n, k₁, hcall, h⟩ := bind_eq_ok.1 h
  cases hcall
  obtain ⟨_, k₂, hsave, h⟩ := bind_eq_ok.1 h
  cases hsave
  obtain ⟨_, k₃, hothers, hrestore⟩ := bind_eq_ok.1 h
  cases hrestore
  unfold othersRun at hothers
  split at hothers
  next k₀ hk =>
    cases hothers
    exact w.others_userRegisters _ _ _ hk
  next => cases hothers

section

variable {R S : SysState c → SysState c → Prop} (he : CallEffect R S)

include he

theorem orFault_keeps {α : Type} (r : Except Fault α) : Effect R (orFault r : Sys c α) := by
  cases r with
  | error e => exact .throw _
  | ok a => exact he.pure a

theorem readRegister_keeps (num : Fin NumTotalRegs) : Effect R (readRegister num : Sys c _) :=
  he.bind he.get fun _ => he.pure _

theorem call_keeps : Effect R (call : Sys c ℕ) := he.modifyGet fun _ => rfl

theorem switchOut_keeps (w : World c) : Effect R (switchOut w) :=
  fun _ _ _ h => he.of_registers _ _ (switchOut_registers w h)

theorem modifySemaphore_keeps (sem : ℕ) (f : Semaphore → Semaphore) :
    Effect R (modifySemaphore sem f : Sys c Unit) := he.modify fun _ => rfl

theorem newSemaphore_keeps (initialValue : BitVec 32) :
    Effect R (newSemaphore initialValue : Sys c ℕ) :=
  he.modifyGet fun _ => rfl

theorem semP_keeps (w : World c) (sem fuel : ℕ) : Effect R (semP w sem fuel) := by
  induction fuel with
  | zero => exact .throw _
  | succ fuel ih =>
    refine he.bind he.get fun k => ?_
    split
    · refine he.bind (modifySemaphore_keeps he sem _) fun _ => ?_
      exact he.bind (switchOut_keeps he w) fun _ => ih
    · exact he.bind (modifySemaphore_keeps he sem _) fun _ => switchOut_keeps he w

theorem semV_keeps (w : World c) (sem : ℕ) : Effect R (semV w sem) :=
  he.bind (modifySemaphore_keeps he sem _) fun _ => switchOut_keeps he w

theorem semDestroy_keeps (w : World c) (sem : ℕ) : Effect R (semDestroy w sem) :=
  he.bind (modifySemaphore_keeps he sem _) fun _ => switchOut_keeps he w

theorem raised_keeps (badVAddr : BitVec 32) : Effect R (raised badVAddr : Sys c Unit) := by
  intro k u k' h
  obtain ⟨r, hr, rfl⟩ := raised_eq_ok.1 h
  exact he.fault k _ badVAddr hr

theorem sysReadMem_keeps (fuel : ℕ) (addr : BitVec 32) :
    Effect R (sysReadMem fuel addr : Sys c _) := by
  unfold sysReadMem
  refine he.bind he.get fun k => he.bind (orFault_keeps he _) fun _ =>
    he.bind (he.modify fun _ => rfl) fun _ => ?_
  split_ifs
  · exact he.bind (raised_keeps he addr) fun _ => he.pure _
  · exact he.bind (he.pure _) fun _ => he.pure _

theorem sysWriteMem_keeps (fuel : ℕ) (addr value : BitVec 32) :
    Effect R (sysWriteMem fuel addr value : Sys c Unit) := by
  unfold sysWriteMem
  refine he.bind he.get fun k => he.bind (orFault_keeps he _) fun _ =>
    he.bind (he.modify fun _ => rfl) fun _ => ?_
  split_ifs
  · exact raised_keeps he addr
  · exact he.pure _

/-! ### Handlers -/

theorem readString_keeps (fuel room : ℕ) (r4 : BitVec 32) :
    Effect R (readString fuel room r4 : Sys c _) := by
  induction room generalizing r4 with
  | zero => exact .throw _
  | succ room ih =>
    refine he.bind (sysReadMem_keeps he fuel r4) fun value => ?_
    split_ifs
    · exact he.pure _
    · exact he.bind (ih (r4 + 1)) fun _ => he.pure _

theorem readBytes_keeps (fuel n : ℕ) (r4 : BitVec 32) :
    Effect R (readBytes fuel n r4 : Sys c _) := by
  induction n generalizing r4 with
  | zero => exact he.pure _
  | succ n ih =>
    exact he.bind (sysReadMem_keeps he fuel r4) fun value =>
      he.bind (ih (r4 + 1)) fun _ => he.pure _

theorem writeBytes_keeps (fuel : ℕ) (bytes : List Byte) (r4 : BitVec 32) :
    Effect R (writeBytes fuel r4 bytes : Sys c Unit) := by
  induction bytes generalizing r4 with
  | nil => exact he.pure _
  | cons b bytes ih => exact he.bind (sysWriteMem_keeps he fuel r4 _) fun _ => ih (r4 + 1)

section Handlers

variable (w : World c) (fuel : ℕ)

theorem nachosOpen_returns : Effect S (nachosOpen w fuel) := by
  unfold nachosOpen
  refine he.comp (readRegister_keeps he 4) fun r4 =>
    he.comp (readString_keeps he fuel 128 r4) fun name => he.comp (call_keeps he) fun n => ?_
  dsimp only
  split_ifs
  · refine he.comp (he.modifyGet fun _ => rfl) fun id => ?_
    split_ifs
    · exact he.comp (he.writeRegister _) fun _ => he.ret
    · exact he.ret
  · exact he.ret

theorem getchars_keeps (n : ℕ) : Effect R (getchars w n) := by
  induction n with
  | zero => exact he.pure _
  | succ n ih => exact he.bind (call_keeps he) fun _ => he.bind ih fun _ => he.pure _

theorem readConsole_keeps (r4 : BitVec 32) (size : ℕ) :
    Effect R (readConsole w fuel r4 size) := by
  unfold readConsole
  exact he.bind (getchars_keeps he w size) fun chars => he.bind (orFault_keeps he _) fun buffer =>
    he.bind (he.modify fun _ => rfl) fun _ =>
      he.bind (writeBytes_keeps he fuel buffer r4) fun _ => he.writeRegister _

theorem readFile_keeps (r4 : BitVec 32) (size : ℕ) (fileId : ℤ) :
    Effect R (readFile w fuel r4 size fileId) := by
  unfold readFile
  refine he.bind he.get fun k => ?_
  split_ifs
  · refine he.bind (call_keeps he) fun n => ?_
    split
    · exact he.bind (writeBytes_keeps he fuel _ r4) fun _ => he.writeRegister _
    · exact he.writeRegister _
  · exact he.writeRegister _

theorem nachosRead_returns : Effect S (nachosRead w fuel) := by
  unfold nachosRead
  refine he.comp (readRegister_keeps he 4) fun r4 => he.comp (readRegister_keeps he 5) fun r5 =>
    he.comp (orFault_keeps he _) fun size => he.comp (readRegister_keeps he 6) fun r6 => ?_
  dsimp only
  split
  · exact he.comp (readConsole_keeps he w fuel r4 size) fun _ => he.ret
  · exact he.ret
  · exact he.ret
  · exact he.comp (readFile_keeps he w fuel r4 size _) fun _ => he.ret

theorem nachosCreate_returns : Effect S (nachosCreate w fuel) := by
  unfold nachosCreate
  exact he.comp (readRegister_keeps he 4) fun r4 =>
    he.comp (readString_keeps he fuel 256 r4) fun _ => he.comp (call_keeps he) fun _ =>
      he.comp (call_keeps he) fun _ => he.ret

theorem nachosClose_returns : Effect S (nachosClose w) := by
  unfold nachosClose
  exact he.comp (readRegister_keeps he 4) fun _ => he.comp he.get fun _ =>
    he.comp (he.modify fun _ => rfl) fun _ => he.comp (call_keeps he) fun _ =>
      he.ret

theorem nachosFork_returns : Effect S (nachosFork w) := by
  unfold nachosFork
  exact he.comp (he.modify fun _ => rfl) fun _ => he.comp (switchOut_keeps he w) fun _ =>
    he.comp (switchOut_keeps he w) fun _ => he.ret

theorem joinSlot_keeps (id : Fin ExecTableSize) : Effect R (joinSlot w fuel id) := by
  unfold joinSlot
  refine he.bind (newSemaphore_keeps he 0) fun joinSem => he.bind he.get fun k => ?_
  dsimp only
  split
  · exact .throw _
  · refine he.bind (he.modify fun _ => rfl) fun _ =>
      he.bind (semP_keeps he w joinSem fuel) fun _ => he.bind he.get fun k => ?_
    split
    · exact .throw _
    · exact he.bind (he.modify fun _ => rfl) fun _ => he.writeRegister _

theorem nachosJoin_returns : Effect S (nachosJoin w fuel) := by
  unfold nachosJoin
  refine he.comp (readRegister_keeps he 4) fun r4 => ?_
  dsimp only
  split
  · refine he.comp he.get fun k => ?_
    split
    · exact he.comp (joinSlot_keeps he w fuel _) fun _ => he.ret
    · exact he.comp (he.writeRegister _) fun _ => he.ret
  · exact .throw _

theorem nachosSemCreate_keeps : Effect R (nachosSemCreate : Sys c Unit) := by
  unfold nachosSemCreate
  exact he.bind (readRegister_keeps he 4) fun _ => he.bind (newSemaphore_keeps he _) fun _ =>
    he.bind (he.modifyGet fun _ => rfl) fun _ => he.writeRegister _

theorem onUserSem_keeps {operate : ℕ → Sys c Unit} (h : ∀ sem, Effect R (operate sem)) :
    Effect R (onUserSem operate) := by
  unfold onUserSem
  refine he.bind (readRegister_keeps he 4) fun _ => he.bind he.get fun _ =>
    he.bind (orFault_keeps he _) fun sem => ?_
  cases sem with
  | some sem => exact he.bind (h sem) fun _ => he.writeRegister _
  | none => exact he.writeRegister _

theorem nachosSemDestroy_keeps : Effect R (nachosSemDestroy w) := by
  unfold nachosSemDestroy
  refine he.bind (readRegister_keeps he 4) fun _ => he.bind he.get fun _ =>
    he.bind (orFault_keeps he _) fun p => he.bind (he.modify fun _ => rfl) fun _ => ?_
  split
  · exact he.bind (semDestroy_keeps he w _) fun _ => he.writeRegister _
  · exact he.writeRegister _

theorem writeEnter_keeps : Effect R (writeEnter w fuel) := by
  unfold writeEnter
  exact he.bind (readRegister_keeps he 4) fun r4 => he.bind (readRegister_keeps he 5) fun _ =>
    he.bind (orFault_keeps he _) fun _ => he.bind (readBytes_keeps he fuel _ r4) fun _ =>
      he.bind (readRegister_keeps he 6) fun _ => he.bind (semP_keeps he w Console fuel) fun _ =>
        he.pure _

theorem writeLeave_returns (size : ℤ) : Effect S (writeLeave w size) :=
  he.comp (he.modify fun _ => rfl) fun _ => he.comp (semV_keeps he w Console) fun _ =>
    he.ret

end Handlers

end

/-- `Nachos_Exit` does not return. -/
theorem nachosExit_stops (k : SysState c) (p : Unit × SysState c) : nachosExit k ≠ .ok p := by
  intro h
  unfold nachosExit at h
  obtain ⟨_, k₁, -, h⟩ := bind_eq_ok.1 h
  obtain ⟨_, k₂, -, h⟩ := bind_eq_ok.1 h
  obtain ⟨_, k₃, -, h⟩ := bind_eq_ok.1 h
  cases h

/-! ### Reading user memory -/

/-- Only the registers, the mode and the memory have changed. -/
def MemoryOnly (k k' : SysState c) : Prop :=
  ∃ registers status vm, k' = { k with registers := registers, status := status, vm := vm }

theorem MemoryOnly.refl (k : SysState c) : MemoryOnly k k := ⟨_, _, _, rfl⟩

theorem MemoryOnly.trans (k₁ k₂ k₃ : SysState c) (h₁ : MemoryOnly k₁ k₂) (h₂ : MemoryOnly k₂ k₃) :
    MemoryOnly k₁ k₃ := by
  obtain ⟨r₁, st₁, vm₁, rfl⟩ := h₁
  obtain ⟨r₂, st₂, vm₂, rfl⟩ := h₂
  exact ⟨r₂, st₂, vm₂, rfl⟩

theorem orFault_memoryOnly {α : Type} (r : Except Fault α) :
    Effect MemoryOnly (orFault r : Sys c α) := by
  cases r with
  | error e => exact .throw _
  | ok a => exact .pure MemoryOnly.refl a

theorem raised_memoryOnly (badVAddr : BitVec 32) :
    Effect MemoryOnly (raised badVAddr : Sys c Unit) :=
  .bind MemoryOnly.trans (.modify fun _ => ⟨_, _, _, rfl⟩) fun _ =>
    .bind MemoryOnly.trans (.get MemoryOnly.refl) fun _ =>
      .bind MemoryOnly.trans (orFault_memoryOnly _) fun _ => .modify fun _ => ⟨_, _, _, rfl⟩

theorem sysReadMem_memoryOnly (fuel : ℕ) (addr : BitVec 32) :
    Effect MemoryOnly (sysReadMem fuel addr : Sys c _) := by
  unfold sysReadMem
  refine .bind MemoryOnly.trans (.get MemoryOnly.refl) fun k =>
    .bind MemoryOnly.trans (orFault_memoryOnly _) fun _ =>
      .bind MemoryOnly.trans (.modify fun _ => ⟨_, _, _, rfl⟩) fun _ => ?_
  split_ifs
  · exact .bind MemoryOnly.trans (raised_memoryOnly addr) fun _ => .pure MemoryOnly.refl _
  · exact .pure MemoryOnly.refl _

theorem readString_memoryOnly (fuel room : ℕ) (r4 : BitVec 32) :
    Effect MemoryOnly (readString fuel room r4 : Sys c _) := by
  induction room generalizing r4 with
  | zero => exact .throw _
  | succ room ih =>
    refine .bind MemoryOnly.trans (sysReadMem_memoryOnly fuel r4) fun value => ?_
    split_ifs
    · exact .pure MemoryOnly.refl _
    · exact .bind MemoryOnly.trans (ih (r4 + 1)) fun _ => .pure MemoryOnly.refl _

/-! ### The two exits that forget -/

/-- The number of a file that is not open. -/
def NotOpen (k : SysState c) (id : ℤ) : Prop :=
  id ∉ [0, 1, 2] ∧ k.mytable.isOpened id = false

theorem writeSwitch_file (w : World c) {size : ℕ} {id : ℤ} (hid : id ∉ [0, 1, 2]) :
    writeSwitch w buffer size id = writeFile w buffer size id := by
  unfold writeSwitch
  split
  · simp at hid
  · simp at hid
  · simp at hid
  · rfl

/-- All slots of the table are in use. -/
def TableFull (k : SysState c) : Prop := ∀ id : Fin ExecTableSize, k.execFilesMap.isSet id = true

section

variable {R S : SysState c → SysState c → Prop} (he : CallEffect R S) (w : World c) (fuel : ℕ)

include he

theorem writeSwitch_console {size : ℕ} {id : ℤ} (hid : id ∈ [0, 1, 2]) :
    Effect S (writeSwitch w buffer size id) := by
  simp only [List.mem_cons, List.not_mem_nil, or_false] at hid
  rcases hid with rfl | rfl | rfl
  · exact he.comp (he.writeRegister _) fun _ => writeLeave_returns he w 0
  · exact he.comp (orFault_keeps he _) fun _ => he.comp (he.modify fun _ => rfl)
      fun _ => writeLeave_returns he w size
  · exact he.comp (readRegister_keeps he 4) fun _ => he.comp (he.modify fun _ => rfl)
      fun _ => writeLeave_returns he w 1

/-- `Nachos_Write` after `Console->P()`. -/
theorem writeSwitch_exits {size : ℕ} {id : ℤ} (h : writeSwitch w buffer size id k = .ok (u, k')) :
    NotOpen k id ∧ R k k' ∨ ¬ NotOpen k id ∧ S k k' := by
  by_cases hid : id ∈ [0, 1, 2]
  · exact Or.inr ⟨fun hno => hno.1 hid, writeSwitch_console he w hid k u k' h⟩
  rw [writeSwitch_file w hid] at h
  obtain ⟨_, k₁, hget, h⟩ := bind_eq_ok.1 h
  cases hget
  dsimp only at h
  split_ifs at h with hopen
  · refine Or.inr ⟨fun hno => by simp [hno.2] at hopen, ?_⟩
    exact he.comp (call_keeps he) (fun _ => he.comp (he.writeRegister _)
      fun _ => writeLeave_returns he w size) _ _ _ h
  · refine Or.inl ⟨⟨hid, by simpa using hopen⟩, ?_⟩
    exact he.writeRegister _ _ _ _ h

theorem execSlot_returns (newT : ℕ) (name : String) (f : Fin ExecTableSize)
    (m : BitMap ExecTableSize) : Effect S (execSlot w newT name f m) :=
  he.comp (he.modify fun _ => rfl) fun _ => he.comp (switchOut_keeps he w) fun _ =>
    he.comp (he.writeRegister _) fun _ => he.ret

/-- `Nachos_Exec` after the name has been read. -/
theorem execFile_exits {name : String} (h : execFile w name k = .ok (u, k')) :
    TableFull k ∧ R k k' ∨ ¬ TableFull k ∧ S k k' := by
  obtain ⟨newT, k₁, hnew, h⟩ := bind_eq_ok.1 h
  cases hnew
  obtain ⟨_, k₁, hget, h⟩ := bind_eq_ok.1 h
  cases hget
  dsimp only at h
  rcases hfind : k.execFilesMap.find with ⟨_ | f, m⟩
  · simp only [hfind] at h
    have hpc := he.writeRegister _ _ _ _ h
    refine Or.inl ⟨fun id => (BitMap.find_none hfind).1 id, he.trans k _ k' ?_ hpc⟩
    exact he.of_registers _ _ rfl
  · have hnot : ¬ TableFull k := by
      intro hfull
      have hclear := (BitMap.find_some hfind).1
      rw [hfull f] at hclear
      cases hclear
    simp only [hfind] at h
    have hpc := execSlot_returns he w _ name f m _ _ _ h
    refine Or.inr ⟨hnot, he.returns k _ k' ?_ hpc⟩
    exact he.of_registers _ _ rfl

/-- `Nachos_Exec`: the name is read before the table is looked at, and leaves it alone. -/
theorem nachosExec_exits (h : nachosExec w fuel k = .ok (u, k')) :
    TableFull k ∧ R k k' ∨ ¬ TableFull k ∧ S k k' := by
  obtain ⟨r4, k₁, hread, h⟩ := bind_eq_ok.1 h
  cases hread
  obtain ⟨name, k₂, hname, h⟩ := bind_eq_ok.1 h
  have hsame := readString_keeps he fuel 256 _ k name k₂ hname
  have hfull : TableFull k ↔ TableFull k₂ := by
    obtain ⟨_, _, _, rfl⟩ := readString_memoryOnly fuel 256 _ k name k₂ hname
    rfl
  rw [hfull]
  rcases execFile_exits he w h with ⟨hf, hpc⟩ | ⟨hf, hpc⟩
  · exact Or.inl ⟨hf, he.trans k k₂ k' hsame hpc⟩
  · exact Or.inr ⟨hf, he.returns k k₂ k' hsame hpc⟩

/-- `Nachos_Write`. -/
theorem nachosWrite_exits (h : nachosWrite w fuel k = .ok (u, k')) :
    ∃ buffer size id k₁, writeEnter w fuel k = .ok ((buffer, size, id), k₁) ∧
      (NotOpen k₁ id ∧ R k k' ∨ ¬ NotOpen k₁ id ∧ S k k') := by
  obtain ⟨⟨buffer, size, id⟩, k₁, henter, h⟩ := bind_eq_ok.1 h
  have hsame := writeEnter_keeps he w fuel k _ k₁ henter
  refine ⟨buffer, size, id, k₁, henter, ?_⟩
  rcases writeSwitch_exits he w h with ⟨hno, hpc⟩ | ⟨hno, hpc⟩
  · exact Or.inl ⟨hno, he.trans k k₁ k' hsame hpc⟩
  · exact Or.inr ⟨hno, he.returns k k₁ k' hsame hpc⟩

/-- The other system calls that return. -/
theorem handler_returns {sc : SysCall} (hexec : sc ≠ .Exec) (hwrite : sc ≠ .Write) :
    Effect S (sc.handler w fuel) := by
  cases sc with
  | Halt => exact .throw _
  | Exit => exact fun k u k' h => absurd h (nachosExit_stops k _)
  | Exec => exact absurd rfl hexec
  | Join => exact nachosJoin_returns he w fuel
  | Create => exact nachosCreate_returns he w fuel
  | Open => exact nachosOpen_returns he w fuel
  | Read => exact nachosRead_returns he w fuel
  | Write => exact absurd rfl hwrite
  | Close => exact nachosClose_returns he w
  | Fork => exact nachosFork_returns he w
  | Yield => exact he.comp (switchOut_keeps he w) fun _ => he.ret
  | SemCreate => exact he.comp (nachosSemCreate_keeps he) fun _ => he.ret
  | SemDestroy => exact he.comp (nachosSemDestroy_keeps he w) fun _ => he.ret
  | SemSignal => exact he.comp (onUserSem_keeps he (semV_keeps he w)) fun _ => he.ret
  | SemWait =>
    exact he.comp (onUserSem_keeps he fun sem => semP_keeps he w sem fuel) fun _ => he.ret

end

end Nachos
