import Nachos.Userprog.Copy
import Nachos.Userprog.Handles
import Nachos.Userprog.ProgramCounter

/-!
# Numbers that a user passes to the kernel

`Join`, `SemWait`, `SemSignal`, `SemDestroy`, `Read`, `Write` and `Close` get a number that should
be the index of an object in a table.

* `SysCall.lookup` has what each of the calls does to its table with the number: every test of a
  bit with the `ASSERT` of `BitMap`, and every array with its bounds.  It returns whether the number
  means an object.  `lookup_error`: where it fails, so does the handler.
* The open-file table checks its numbers itself (`isOpenedChecked_eq` and the lemmas after it), the
  exec table leaves it to `BitMap`, and the semaphore table does not check.
* `identifier_safe_iff`: the numbers with which a call is safe.
-/

namespace Nachos

open Fallible Function

variable {c : Sizes}

/-! ### Lookups with all checks -/

theorem ok_bind {ε α β : Type} (a : α) (f : α → Except ε β) : (Except.ok a >>= f) = f a := rfl

namespace NachosOpenFilesTable

variable (t : NachosOpenFilesTable)

/-- `isOpened`, with the `ASSERT` of `Test`. -/
def isOpenedChecked (id : ℤ) : Except Fault Bool :=
  if 0 ≤ id ∧ id < MAX_FILES then t.openFilesMap.test id else .ok false

/-- `getUnixHandle`, with the bounds of `openFiles`. -/
def getUnixHandleChecked (id : ℤ) : Except Fault ℤ := do
  if ← t.isOpenedChecked id then
    let x ← subscript MAX_FILES id
    return t.openFiles x
  else return -1

/-- `Close`, with the `ASSERT` of `Clear` and the bounds of `openFiles`. -/
def closeChecked (id : ℤ) : Except Fault (ℤ × NachosOpenFilesTable) := do
  if ← t.isOpenedChecked id then
    let openFilesMap ← t.openFilesMap.clear id
    let x ← subscript MAX_FILES id
    return (0, { t with
      openFiles := update t.openFiles x 0
      openFilesMap := openFilesMap })
  else return (-1, t)

theorem isOpenedChecked_eq (id : ℤ) : t.isOpenedChecked id = .ok (t.isOpened id) := by
  unfold isOpenedChecked isOpened BitMap.test
  split_ifs <;> rfl

theorem getUnixHandleChecked_eq (id : ℤ) :
    t.getUnixHandleChecked id = .ok (t.getUnixHandle id) := by
  unfold getUnixHandleChecked
  rw [isOpenedChecked_eq]
  cases ho : t.isOpened id with
  | false =>
    simp only [getUnixHandle, ho, Bool.false_eq_true, if_false, dite_eq_ite, ite_self]
    rfl
  | true =>
    obtain ⟨x, rfl, -⟩ := exists_of_isOpened ho
    have hh : t.getUnixHandle (x : ℕ) = t.openFiles x := by
      unfold getUnixHandle
      rw [dif_pos (by simp), if_pos ho]
      simp
    rw [hh, ok_bind, if_pos rfl, subscript_fin, ok_bind]
    rfl

theorem closeChecked_eq (id : ℤ) : t.closeChecked id = .ok (t.Close id) := by
  unfold closeChecked
  rw [isOpenedChecked_eq]
  cases ho : t.isOpened id with
  | false =>
    simp only [Close, ho]
    rfl
  | true =>
    rcases t.close_cases id with ⟨hno, -⟩ | ⟨x, rfl, hc⟩
    · rw [ho] at hno
      cases hno
    · have hfst : (t.Close (x : ℕ)).1 = 0 := by simp [Close, ho]
      rw [ok_bind, if_pos rfl, BitMap.clear_fin, ok_bind, subscript_fin, ok_bind]
      exact congrArg Except.ok (Prod.ext hfst.symm hc.symm)

end NachosOpenFilesTable

/-- What a call does to its table with the number `id`: whether it means an object there. -/
def SysCall.lookup (k : SysState c) (id : ℤ) : SysCall → Except Fault Bool
  | .Join => do
    let live ← k.execFilesMap.test id
    if live then
      let _ ← subscript ExecTableSize id
      let _ ← k.execFilesMap.clear id
      return true
    else return false
  | .SemWait | .SemSignal => return (← k.mySems.getNachosPointer id).isSome
  | .SemDestroy => return (← k.mySems.unRegisterSem id).1.isSome
  | .Read | .Write => do
    let _ ← k.mytable.getUnixHandleChecked id
    k.mytable.isOpenedChecked id
  | .Close => do
    let _ ← k.mytable.getUnixHandleChecked id
    let _ ← k.mytable.closeChecked id
    k.mytable.isOpenedChecked id
  | _ => return true

/-- The number that the user passes. -/
def SysCall.idOf (k : SysState c) : SysCall → ℤ
  | .Read | .Write => (k.registers 6).toInt
  | _ => (k.registers 4).toInt

/-- The calls that return -1 for a number that means nothing. -/
def SysCall.reports : SysCall → Bool
  | .Join | .SemWait | .SemSignal | .SemDestroy | .Read => true
  | _ => false

/-- The tables of open files, semaphores and processes. -/
def SysState.tables (k : SysState c) :=
  (k.mytable, k.mySems, k.execFiles, k.execFilesMap)

/-- The tables are what they were, as far as the other threads leave them alone. -/
def TablesKept (w : World c) (k k' : SysState c) : Prop :=
  (∀ n k₁ k₂, w.others n k₁ = some k₂ → k₂.tables = k₁.tables) → k'.tables = k.tables

/-- The call is safe with the number it got: no lookup fails, and if the number means nothing, the
call says so and keeps the tables. -/
def IdentifierSafe (w : World c) (fuel : ℕ) (k : SysState c) (sc : SysCall) : Prop :=
  ∃ live, sc.lookup k (sc.idOf k) = .ok live ∧
    (live = false →
      (∀ k', sc.handler w fuel k = .ok ((), k') → TablesKept w k k') ∧
      (sc.reports = true → ∃ k', sc.handler w fuel k = .ok ((), k') ∧ k'.registers 2 = -1))

/-- The numbers with which a call is safe. -/
def SafeIdentifier (k : SysState c) : SysCall → Prop
  | .Join => 0 ≤ (k.registers 4).toInt ∧ (k.registers 4).toInt < ExecTableSize
  | .SemWait | .SemSignal | .SemDestroy =>
    0 ≤ (k.registers 4).toInt ∧ (k.registers 4).toInt < MAX_SEMS
  | .Read => k.mytable.isOpened (k.registers 6).toInt = true ∨
    (k.registers 6).toInt ∉ [0, 1, 2] ∧ ∃ n, bufferSize (k.registers 5) = .ok n
  | _ => True

/-! ### What the lookups return -/

variable {sc : SysCall}

section lookup

variable {k : SysState c} {id : ℤ}

theorem lookup_file (k : SysState c) (id : ℤ) (h : sc ∈ [.Read, .Write, .Close]) :
    sc.lookup k id = .ok (k.mytable.isOpened id) := by
  simp only [List.mem_cons, List.not_mem_nil, or_false] at h
  rcases h with rfl | rfl | rfl
  · simp only [SysCall.lookup, NachosOpenFilesTable.getUnixHandleChecked_eq,
      NachosOpenFilesTable.isOpenedChecked_eq, ok_bind]
  · simp only [SysCall.lookup, NachosOpenFilesTable.getUnixHandleChecked_eq,
      NachosOpenFilesTable.isOpenedChecked_eq, ok_bind]
  · simp only [SysCall.lookup, NachosOpenFilesTable.getUnixHandleChecked_eq,
      NachosOpenFilesTable.closeChecked_eq, NachosOpenFilesTable.isOpenedChecked_eq, ok_bind]

theorem lookup_join (h : 0 ≤ id ∧ id < ExecTableSize) :
    SysCall.Join.lookup k id = .ok (k.execFilesMap.isSet id.toNat) := by
  have htest : k.execFilesMap.test id = .ok (k.execFilesMap.isSet id.toNat) := if_pos h
  simp only [SysCall.lookup, htest, ok_bind]
  cases hset : k.execFilesMap.isSet id.toNat with
  | false => rfl
  | true =>
    have hsub : subscript ExecTableSize id = .ok ⟨id.toNat, by omega⟩ :=
      dif_pos ⟨h.1, by omega⟩
    have hclear : k.execFilesMap.clear id = .ok (k.execFilesMap.clearBit id.toNat) := if_pos h
    simp only [if_true, hsub, hclear, ok_bind]
    rfl

theorem lookup_join_error (h : ¬ (0 ≤ id ∧ id < ExecTableSize)) :
    SysCall.Join.lookup k id = .error .bitMapRange := by
  have htest : k.execFilesMap.test id = .error .bitMapRange := if_neg h
  simp only [SysCall.lookup, htest]
  rfl

theorem place_ok (h : 0 ≤ id ∧ id < MAX_SEMS) :
    NachosSems.place id = .ok ⟨id.toNat, by omega⟩ := dif_pos ⟨h.1, by omega⟩

theorem place_error (h : ¬ (0 ≤ id ∧ id < MAX_SEMS)) :
    NachosSems.place id = .error .wildAccess := dif_neg (by omega)

theorem unRegisterSem_ok (t : NachosSems) (h : 0 ≤ id ∧ id < MAX_SEMS) :
    ∃ t', t.unRegisterSem id = .ok (t.semaphores ⟨id.toNat, by omega⟩, t') ∧
      (t.semaphores ⟨id.toNat, by omega⟩ = none → t' = t) := by
  unfold NachosSems.unRegisterSem
  rw [place_ok h, ok_bind]
  cases hs : t.semaphores ⟨id.toNat, by omega⟩ with
  | none => exact ⟨t, rfl, fun _ => rfl⟩
  | some sem =>
    have hclear : t.openSemsMap.clear id = .ok (t.openSemsMap.clearBit id.toNat) := if_pos h
    simp only [hclear, ok_bind]
    exact ⟨_, rfl, fun h => by cases h⟩

theorem lookup_sem (h : 0 ≤ id ∧ id < MAX_SEMS) (hsc : sc ∈ [.SemWait, .SemSignal, .SemDestroy]) :
    sc.lookup k id = .ok (k.mySems.semaphores ⟨id.toNat, by omega⟩).isSome := by
  simp only [List.mem_cons, List.not_mem_nil, or_false] at hsc
  rcases hsc with rfl | rfl | rfl
  · simp only [SysCall.lookup, NachosSems.getNachosPointer, place_ok h, ok_bind]
    rfl
  · simp only [SysCall.lookup, NachosSems.getNachosPointer, place_ok h, ok_bind]
    rfl
  · obtain ⟨t', hun, -⟩ := unRegisterSem_ok k.mySems h
    simp only [SysCall.lookup, hun, ok_bind]
    rfl

theorem lookup_sem_error (h : ¬ (0 ≤ id ∧ id < MAX_SEMS))
    (hsc : sc ∈ [.SemWait, .SemSignal, .SemDestroy]) : sc.lookup k id = .error .wildAccess := by
  simp only [List.mem_cons, List.not_mem_nil, or_false] at hsc
  rcases hsc with rfl | rfl | rfl
  · simp only [SysCall.lookup, NachosSems.getNachosPointer, place_error h]
    rfl
  · simp only [SysCall.lookup, NachosSems.getNachosPointer, place_error h]
    rfl
  · simp only [SysCall.lookup, NachosSems.unRegisterSem, place_error h]
    rfl

end lookup

/-! ### The handlers with numbers that mean nothing -/

section handlers

variable {w : World c} {fuel : ℕ} {k : SysState c}

/-- `r2` gets -1, and the call returns. -/
theorem minusOne_run (k : SysState c) :
    ∃ k', (do writeRegister 2 (-1); returnFromSystemCall : Sys c Unit) k = .ok ((), k') ∧
      k'.registers 2 = -1 ∧ k'.tables = k.tables := by
  rw [bind_run rfl]
  obtain ⟨k', hret, hr2, hrest⟩ := returnFromSystemCall_run (c := c)
    { k with registers := update k.registers 2 (-1) }
  refine ⟨k', hret, ?_, by rw [hrest]; rfl⟩
  rw [hr2]
  dsimp only
  rw [update_self]

theorem join_dead (h : 0 ≤ (k.registers 4).toInt ∧ (k.registers 4).toInt < ExecTableSize)
    (hdead : k.execFilesMap.isSet (k.registers 4).toInt.toNat = false) :
    ∃ k', nachosJoin w fuel k = .ok ((), k') ∧ k'.registers 2 = -1 ∧ k'.tables = k.tables := by
  unfold nachosJoin
  rw [bind_run (m := readRegister 4) (a := k.registers 4) rfl]
  dsimp only
  rw [dif_pos ⟨h.1, by omega⟩, bind_run (m := get) rfl, hdead]
  exact minusOne_run k

theorem join_outside (h : ¬ (0 ≤ (k.registers 4).toInt ∧ (k.registers 4).toInt < ExecTableSize)) :
    nachosJoin w fuel k = .error (.fault .bitMapRange) := by
  unfold nachosJoin
  rw [bind_run (m := readRegister 4) (a := k.registers 4) rfl]
  dsimp only
  rw [dif_neg (by omega)]
  rfl

theorem onUserSem_dead {operate : ℕ → Sys c Unit}
    (h : 0 ≤ (k.registers 4).toInt ∧ (k.registers 4).toInt < MAX_SEMS)
    (hdead : k.mySems.semaphores ⟨(k.registers 4).toInt.toNat, by omega⟩ = none) :
    ∃ k', (do onUserSem operate; returnFromSystemCall : Sys c Unit) k = .ok ((), k') ∧
      k'.registers 2 = -1 ∧ k'.tables = k.tables := by
  have hget : k.mySems.getNachosPointer (k.registers 4).toInt = .ok none := by
    unfold NachosSems.getNachosPointer
    rw [place_ok h, ok_bind, hdead]
    rfl
  have hrun : onUserSem operate k = (writeRegister 2 (-1) : Sys c Unit) k := by
    unfold onUserSem
    rw [bind_run (m := readRegister 4) (a := k.registers 4) rfl, bind_run (m := get) rfl, hget]
    rfl
  obtain ⟨k', hk', h2, ht⟩ := minusOne_run k
  refine ⟨k', ?_, h2, ht⟩
  rw [← hk']
  exact bind_congr hrun fun _ _ _ => rfl

theorem onUserSem_outside {operate : ℕ → Sys c Unit}
    (h : ¬ (0 ≤ (k.registers 4).toInt ∧ (k.registers 4).toInt < MAX_SEMS)) :
    (do onUserSem operate; returnFromSystemCall : Sys c Unit) k =
      .error (.fault .wildAccess) := by
  refine bind_error ?_
  unfold onUserSem NachosSems.getNachosPointer
  rw [bind_run (m := readRegister 4) (a := k.registers 4) rfl, bind_run (m := get) rfl,
    place_error h]
  rfl

theorem semDestroy_dead (h : 0 ≤ (k.registers 4).toInt ∧ (k.registers 4).toInt < MAX_SEMS)
    (hdead : k.mySems.semaphores ⟨(k.registers 4).toInt.toNat, by omega⟩ = none) :
    ∃ k', (do nachosSemDestroy w; returnFromSystemCall : Sys c Unit) k = .ok ((), k') ∧
      k'.registers 2 = -1 ∧ k'.tables = k.tables := by
  obtain ⟨t', hun, hsame⟩ := unRegisterSem_ok k.mySems h
  rw [hdead] at hun
  obtain rfl := hsame hdead
  have hrun : nachosSemDestroy w k = (writeRegister 2 (-1) : Sys c Unit) k := by
    unfold nachosSemDestroy
    rw [bind_run (m := readRegister 4) (a := k.registers 4) rfl, bind_run (m := get) rfl]
    dsimp only
    rw [hun]
    rfl
  obtain ⟨k', hk', h2, ht⟩ := minusOne_run k
  refine ⟨k', ?_, h2, ht⟩
  rw [← hk']
  exact bind_congr hrun fun _ _ _ => rfl

theorem semDestroy_outside
    (h : ¬ (0 ≤ (k.registers 4).toInt ∧ (k.registers 4).toInt < MAX_SEMS)) :
    (do nachosSemDestroy w; returnFromSystemCall : Sys c Unit) k =
      .error (.fault .wildAccess) := by
  refine bind_error ?_
  unfold nachosSemDestroy NachosSems.unRegisterSem
  rw [bind_run (m := readRegister 4) (a := k.registers 4) rfl, bind_run (m := get) rfl]
  dsimp only
  rw [place_error h]
  rfl

theorem read_dead {size : ℕ} (hsize : bufferSize (k.registers 5) = .ok size)
    (hid : (k.registers 6).toInt ∉ [0, 1, 2])
    (hclosed : k.mytable.isOpened (k.registers 6).toInt = false) :
    ∃ k', nachosRead w fuel k = .ok ((), k') ∧ k'.registers 2 = -1 ∧ k'.tables = k.tables := by
  rw [nachosRead_sized hsize]
  split
  · rename_i h0
    exact absurd h0 fun h => hid (by simp [h])
  · rename_i h1
    exact absurd h1 fun h => hid (by simp [h])
  · rename_i h2
    exact absurd h2 fun h => hid (by simp [h])
  · obtain ⟨k', hk', h2, ht⟩ := minusOne_run k
    refine ⟨k', ?_, h2, ht⟩
    rw [← hk']
    refine bind_congr ?_ fun _ _ _ => rfl
    unfold readFile
    rw [bind_run (m := get) rfl, hclosed]
    rfl

/-- The end of a handler leaves `r2` alone. -/
theorem return_r2 {k' : SysState c} (h : returnFromSystemCall k = .ok ((), k')) :
    k'.registers 2 = k.registers 2 := by
  obtain ⟨k₁, hret, hr2, -⟩ := returnFromSystemCall_run k
  rw [hret] at h
  cases h
  exact hr2

/-- `Nachos_Read` from the console returns a number of bytes. -/
theorem readConsole_r2 {r4 : BitVec 32} {size : ℕ} (hsize : size + 1 < 2 ^ 31) {k' : SysState c}
    (h : readConsole w fuel r4 size k = .ok ((), k')) : k'.registers 2 ≠ -1 := by
  unfold readConsole at h
  obtain ⟨chars, k₁, hchars, h⟩ := bind_eq_ok.1 h
  obtain ⟨reader, k₂, hreader, h⟩ := bind_eq_ok.1 h
  obtain ⟨_, k₃, -, h⟩ := bind_eq_ok.1 h
  obtain ⟨_, k₄, -, h⟩ := bind_eq_ok.1 h
  cases h
  have hlen : reader.length ≤ size := by
    rw [cString_zero] at hreader
    cases hreader
    rw [← getchars_length w size hchars]
    exact (List.takeWhile_prefix _).length_le
  dsimp only
  rw [update_self]
  intro heq
  have := congrArg BitVec.toNat heq
  simp only [BitVec.toNat_ofNat] at this
  rw [Nat.mod_eq_of_lt (by omega)] at this
  have hminus : (-1 : BitVec 32).toNat = 2 ^ 32 - 1 := by decide
  omega

/-- `Nachos_Read` for the files of the console never returns -1. -/
theorem read_console_r2 (hcode : k.registers 2 = 6) (hid : (k.registers 6).toInt ∈ [0, 1, 2])
    {k' : SysState c} (h : nachosRead w fuel k = .ok ((), k')) : k'.registers 2 ≠ -1 := by
  by_cases hsize : ∃ n, bufferSize (k.registers 5) = .ok n
  · obtain ⟨size, hsize⟩ := hsize
    have hlt := bufferSize_lt hsize
    rw [nachosRead_sized hsize] at h
    have hstays : ∀ k₁, returnFromSystemCall k₁ = .ok ((), k') → k₁.registers 2 = 6 →
        k'.registers 2 ≠ -1 := by
      intro k₁ hret h6
      rw [return_r2 hret, h6]
      decide
    split at h
    · obtain ⟨_, k₁, hread, hret⟩ := bind_eq_ok.1 h
      rw [return_r2 hret]
      exact readConsole_r2 hlt hread
    · exact hstays k h hcode
    · exact hstays k h hcode
    · rename_i h0 h1 h2
      simp only [List.mem_cons, List.not_mem_nil, or_false] at hid
      rcases hid with hid | hid | hid
      · exact absurd hid h0
      · exact absurd hid h1
      · exact absurd hid h2
  · rw [nachosRead_unsized hsize] at h
    cases h

theorem close_dead (hclosed : k.mytable.isOpened (k.registers 4).toInt = false) {k' : SysState c}
    (h : nachosClose w k = .ok ((), k')) : k'.tables = k.tables := by
  have hsame : (k.mytable.Close (k.registers 4).toInt).2 = k.mytable := by
    unfold NachosOpenFilesTable.Close
    rw [if_neg (by rw [hclosed]; decide)]
  cases h
  simp only [SysState.tables, hsame]

end handlers

/-! ### `Write` keeps the tables -/

namespace TablesKept

variable {w : World c} {k k' k'' : SysState c}

theorem of_eq (h : k'.tables = k.tables) : TablesKept w k k' := fun _ => h

theorem refl (k : SysState c) : TablesKept w k k := of_eq rfl

theorem trans (k₁ k₂ k₃ : SysState c) (h : TablesKept w k₁ k₂) (h' : TablesKept w k₂ k₃) :
    TablesKept w k₁ k₃ := fun ho => (h' ho).trans (h ho)

variable {α β : Type} {m : Sys c α} {f : α → Sys c β}

theorem bind (hm : Effect (TablesKept w) m) (hf : ∀ a, Effect (TablesKept w) (f a)) :
    Effect (TablesKept w) (m >>= f) := .bind trans hm hf

theorem pure (a : α) : Effect (TablesKept w) (Pure.pure a : Sys c α) := .pure refl a

theorem modify {g : SysState c → SysState c} (hg : ∀ k, (g k).tables = k.tables) :
    Effect (TablesKept w) (modify g : Sys c PUnit) := .modify fun k => of_eq (hg k)

theorem readRegister (num : Fin NumTotalRegs) :
    Effect (TablesKept w) (readRegister num : Sys c _) := .bind trans (.get refl) fun _ => pure _

theorem writeRegister (value : BitVec 32) :
    Effect (TablesKept w) (writeRegister 2 value : Sys c Unit) := modify fun _ => rfl

theorem ofCopied (h : Effect Copied m) : Effect (TablesKept w) m :=
  h.mono fun k k' hc => of_eq (by rw [hc.rest]; rfl)

theorem switchOut : Effect (TablesKept w) (switchOut w) := by
  intro k u k' h ho
  unfold Nachos.switchOut at h
  obtain ⟨n, k₁, hcall, h⟩ := bind_eq_ok.1 h
  cases hcall
  obtain ⟨_, k₂, hsave, h⟩ := bind_eq_ok.1 h
  cases hsave
  obtain ⟨_, k₃, hothers, hrestore⟩ := bind_eq_ok.1 h
  cases hrestore
  unfold othersRun at hothers
  split at hothers
  next k₀ hk =>
    cases hothers
    have hsame := ho _ _ _ hk
    exact hsame
  next => cases hothers

theorem semP (sem fuel : ℕ) : Effect (TablesKept w) (semP w sem fuel) := by
  induction fuel with
  | zero => exact .throw _
  | succ fuel ih =>
    refine bind (.get refl) fun k => ?_
    split
    · exact bind (modify fun _ => rfl) fun _ => bind switchOut fun _ => ih
    · exact bind (modify fun _ => rfl) fun _ => switchOut

theorem returnFromSystemCall : Effect (TablesKept w) (returnFromSystemCall : Sys c Unit) := by
  intro k u k' h
  cases h
  exact of_eq rfl

theorem writeLeave (size : ℤ) : Effect (TablesKept w) (writeLeave w size) :=
  bind (modify fun _ => rfl) fun _ =>
    bind (bind (modify fun _ => rfl) fun _ => switchOut) fun _ => returnFromSystemCall

theorem writeSwitch (buffer : List Byte) (size : ℕ) (id : ℤ) :
    Effect (TablesKept w) (writeSwitch w buffer size id) := by
  unfold Nachos.writeSwitch
  split
  · exact bind (writeRegister _) fun _ => writeLeave _
  · exact bind (ofCopied (Copied.orFault _)) fun _ => bind (modify fun _ => rfl) fun _ =>
      writeLeave _
  · exact bind (readRegister 4) fun _ => bind (modify fun _ => rfl) fun _ => writeLeave _
  · unfold writeFile
    refine bind (.get refl) fun k => ?_
    split
    · refine bind ?_ fun _ => bind (writeRegister _) fun _ => writeLeave _
      exact fun k n k' h => by cases h; exact of_eq rfl
    · exact writeRegister _

theorem nachosWrite (fuel : ℕ) : Effect (TablesKept w) (nachosWrite w fuel) := by
  unfold Nachos.nachosWrite writeEnter
  refine bind (bind (readRegister 4) fun _ => bind (readRegister 5) fun _ =>
    bind (ofCopied (Copied.orFault _)) fun _ => bind (ofCopied (readBytes_copied fuel _ _)) fun _ =>
      bind (readRegister 6) fun _ => bind (semP Console fuel) fun _ => pure _) fun _ => ?_
  exact writeSwitch _ _ _

end TablesKept

/-! ### The numbers with which the calls are safe -/

section safe

variable {w : World c} {fuel : ℕ} {k : SysState c}

theorem SysCall.ofCode_read {type : BitVec 32} (h : SysCall.ofCode type = some .Read) :
    type = 6 := by
  have hall : ∀ n < 15, ([Halt, Exit, Exec, Join, Create, Open, Read, Write, Close, Fork, Yield,
      SemCreate, SemDestroy, SemSignal, SemWait] : List SysCall)[n]? = some .Read → n = 6 := by
    decide
  obtain ⟨hlt, -⟩ := List.getElem?_eq_some_iff.1 h
  exact BitVec.eq_of_toNat_eq (hall type.toNat hlt h)

/-- Where a lookup fails, the handler fails. -/
theorem lookup_error {e : Fault} (h : sc.lookup k (sc.idOf k) = .error e) :
    sc.handler w fuel k = .error (.fault e) := by
  have hsem : ∀ sc' : SysCall, sc' ∈ [.SemWait, .SemSignal, .SemDestroy] →
      sc'.lookup k (k.registers 4).toInt = .error e →
      ¬ (0 ≤ (k.registers 4).toInt ∧ (k.registers 4).toInt < MAX_SEMS) ∧ e = .wildAccess := by
    intro sc' hsc' hlook
    by_cases hr : 0 ≤ (k.registers 4).toInt ∧ (k.registers 4).toInt < MAX_SEMS
    · rw [lookup_sem hr hsc'] at hlook
      cases hlook
    · rw [lookup_sem_error hr hsc'] at hlook
      cases hlook
      exact ⟨hr, rfl⟩
  cases sc with
  | Join =>
    change SysCall.Join.lookup k (k.registers 4).toInt = _ at h
    by_cases hr : 0 ≤ (k.registers 4).toInt ∧ (k.registers 4).toInt < ExecTableSize
    · rw [lookup_join hr] at h
      cases h
    · rw [lookup_join_error hr] at h
      cases h
      exact join_outside hr
  | SemWait =>
    obtain ⟨hr, rfl⟩ := hsem .SemWait (by simp) h
    exact onUserSem_outside hr
  | SemSignal =>
    obtain ⟨hr, rfl⟩ := hsem .SemSignal (by simp) h
    exact onUserSem_outside hr
  | SemDestroy =>
    obtain ⟨hr, rfl⟩ := hsem .SemDestroy (by simp) h
    exact semDestroy_outside hr
  | Read | Write | Close =>
    rw [lookup_file _ _ (by simp)] at h
    cases h
  | _ => cases h

/-- A call whose handler says -1 and keeps the tables when the number means nothing. -/
theorem identifierSafe_of_dead {live : Bool} (hlook : sc.lookup k (sc.idOf k) = .ok live)
    (hdead : live = false →
      ∃ k', sc.handler w fuel k = .ok ((), k') ∧ k'.registers 2 = -1 ∧ k'.tables = k.tables) :
    IdentifierSafe w fuel k sc := by
  refine ⟨live, hlook, fun hl => ?_⟩
  obtain ⟨k', hrun, h2, ht⟩ := hdead hl
  refine ⟨fun k'' hk'' => ?_, fun _ => ⟨k', hrun, h2⟩⟩
  rw [hrun] at hk''
  cases hk''
  exact .of_eq ht

theorem identifierSafe_sem_iff (hsc : sc ∈ [.SemWait, .SemSignal, .SemDestroy]) :
    IdentifierSafe w fuel k sc ↔
      0 ≤ (k.registers 4).toInt ∧ (k.registers 4).toInt < MAX_SEMS := by
  have hid : sc.idOf k = (k.registers 4).toInt := by
    simp only [List.mem_cons, List.not_mem_nil, or_false] at hsc
    rcases hsc with rfl | rfl | rfl <;> rfl
  by_cases hr : 0 ≤ (k.registers 4).toInt ∧ (k.registers 4).toInt < MAX_SEMS
  · refine iff_of_true (identifierSafe_of_dead (by rw [hid]; exact lookup_sem hr hsc) ?_) hr
    intro hnone
    have hdead := Option.isSome_eq_false_iff.1 hnone
    rw [Option.isNone_iff_eq_none] at hdead
    simp only [List.mem_cons, List.not_mem_nil, or_false] at hsc
    rcases hsc with rfl | rfl | rfl
    · exact onUserSem_dead hr hdead
    · exact onUserSem_dead hr hdead
    · exact semDestroy_dead hr hdead
  · refine iff_of_false ?_ hr
    rintro ⟨live, hlook, -⟩
    rw [hid, lookup_sem_error hr hsc] at hlook
    cases hlook

theorem identifierSafe_join_iff : IdentifierSafe w fuel k .Join ↔
    0 ≤ (k.registers 4).toInt ∧ (k.registers 4).toInt < ExecTableSize := by
  by_cases hr : 0 ≤ (k.registers 4).toInt ∧ (k.registers 4).toInt < ExecTableSize
  · exact iff_of_true (identifierSafe_of_dead (lookup_join hr) (join_dead hr)) hr
  · refine iff_of_false ?_ hr
    rintro ⟨live, hlook, -⟩
    change SysCall.Join.lookup k (k.registers 4).toInt = _ at hlook
    rw [lookup_join_error hr] at hlook
    cases hlook

theorem identifierSafe_read_iff (hcode : k.registers 2 = 6) :
    IdentifierSafe w fuel k .Read ↔ SafeIdentifier k .Read := by
  have hlook : SysCall.Read.lookup k (SysCall.Read.idOf k) =
      .ok (k.mytable.isOpened (k.registers 6).toInt) := lookup_file _ _ (by simp)
  cases hopen : k.mytable.isOpened (k.registers 6).toInt with
  | true =>
    rw [hopen] at hlook
    exact iff_of_true (identifierSafe_of_dead hlook fun h => by cases h) (Or.inl hopen)
  | false =>
    rw [hopen] at hlook
    by_cases hgood : (k.registers 6).toInt ∉ [0, 1, 2] ∧ ∃ n, bufferSize (k.registers 5) = .ok n
    · obtain ⟨hid, size, hsize⟩ := id hgood
      exact iff_of_true (identifierSafe_of_dead hlook fun _ => read_dead hsize hid hopen)
        (Or.inr hgood)
    · refine iff_of_false ?_ ?_
      · rintro ⟨live, hlive, hdead⟩
        rw [hlook] at hlive
        cases hlive
        obtain ⟨k', hrun, h2⟩ := (hdead rfl).2 rfl
        by_cases hid : (k.registers 6).toInt ∈ [0, 1, 2]
        · exact read_console_r2 hcode hid hrun h2
        · have hrun' : nachosRead w fuel k = .ok ((), k') := hrun
          rw [nachosRead_unsized fun hsize => hgood ⟨hid, hsize⟩] at hrun'
          cases hrun'
      · rintro (h | h)
        · rw [hopen] at h
          cases h
        · exact hgood h

/-- **The numbers that are safe to pass to the kernel.**  `Join` needs a number of the exec table,
the semaphore calls one of the semaphore table; `Read` does not say that a file of the console is
closed; `Write` and `Close` are safe. -/
theorem identifier_safe_iff (w : World c) (fuel : ℕ) {k : SysState c} {sc : SysCall}
    (hcode : SysCall.ofCode (k.registers 2) = some sc)
    (hsc : sc ∈ [.Join, .SemWait, .SemSignal, .SemDestroy, .Read, .Write, .Close]) :
    IdentifierSafe w fuel k sc ↔ SafeIdentifier k sc := by
  simp only [List.mem_cons, List.not_mem_nil, or_false] at hsc
  rcases hsc with rfl | rfl | rfl | rfl | rfl | rfl | rfl
  · exact identifierSafe_join_iff
  · exact identifierSafe_sem_iff (by simp)
  · exact identifierSafe_sem_iff (by simp)
  · exact identifierSafe_sem_iff (by simp)
  · exact identifierSafe_read_iff (SysCall.ofCode_read hcode)
  · refine iff_of_true ⟨_, lookup_file _ _ (by simp), fun _ => ⟨fun k' hk' => ?_, fun h => ?_⟩⟩
      trivial
    · exact TablesKept.nachosWrite fuel k () k' hk'
    · cases h
  · refine iff_of_true ⟨_, lookup_file _ _ (by simp), fun hdead => ⟨fun k' hk' => ?_, fun h => ?_⟩⟩
      trivial
    · exact .of_eq (close_dead (w := w) hdead hk')
    · cases h

end safe

/-- A program makes the system call `code` with `id` in `r4` and in `r6`, and with an open-file
table in which only the console's output has been closed. -/
def callsWithId (code id : BitVec 32) : SysState machineH :=
  { callsWrite 1 with
    registers := fun i => if i = 2 then code else if i = 4 ∨ i = 6 then id else 0
    mytable := ⟨fun _ => 0, ⟨fun _ => 5⟩, 1⟩
    mySems := ⟨⟨fun _ => 0⟩, fun _ => none, 1⟩
    execFilesMap := ⟨fun _ => 0⟩ }

/-- `Join` of a number of the table that is not in use. -/
theorem identifier_safe_join : IdentifierSafe quiet 2 (callsWithId 3 7) .Join :=
  (identifier_safe_iff quiet 2 (by decide) (by decide)).2
    (by unfold SafeIdentifier; decide)

/-- `Join` and `SemWait` of the -1 that a failed `Exec` or `SemCreate` returns, and `Read` of the
closed output of the console, which returns its own code. -/
theorem identifiers_unsafe :
    nachosJoin quiet 2 (callsWithId 3 (-1)) = .error (.fault .bitMapRange) ∧
    ¬ IdentifierSafe quiet 2 (callsWithId 3 (-1)) .Join ∧
    nachosSemWait quiet 2 (callsWithId 14 (-1)) = .error (.fault .wildAccess) ∧
    ¬ IdentifierSafe quiet 2 (callsWithId 14 (-1)) .SemWait ∧
    (∃ k', nachosRead quiet 2 (callsWithId 6 1) = .ok ((), k') ∧ k'.registers 2 = 6) ∧
    ¬ IdentifierSafe quiet 2 (callsWithId 6 1) .Read := by
  refine ⟨rfl, ?_, rfl, ?_, ⟨_, rfl, rfl⟩, ?_⟩
  · exact fun h => absurd (identifierSafe_join_iff.1 h).1 (by decide)
  · exact fun h => absurd ((identifierSafe_sem_iff (by simp)).1 h).1 (by decide)
  · refine fun h => ?_
    rcases (identifierSafe_read_iff rfl).1 h with h | h
    · exact absurd h (by decide)
    · exact absurd h.1 (by decide)

end Nachos
