import Nachos.Userprog.Copy
import Nachos.Userprog.ProgramCounter

/-!
# What `Open` reports

`Nachos_Open` once more, with the UNIX descriptors that are open: `open` adds one, and nothing in
the handler closes one.  `nachosOpenUnix_erase` says that it is the handler of the system call.

The two failures, of `open` and of the open-file table, end at the same exit, which writes no
register: `r2` still holds the code of the system call.
-/

namespace Nachos

open Fallible

variable {c : Sizes}

/-- Kernel code, with the open UNIX descriptors. -/
abbrev UnixSys (c : Sizes) := StateT (List ℤ) (Sys c)

/-- `open`. -/
def unixOpenCall (w : World c) (name : String) : UnixSys c ℤ := do
  let fd := w.unixOpen (← (call : Sys c ℕ)) name
  if fd ≠ -1 then modify (fd :: ·)
  return fd

/-- `Nachos_Open` after `open` has returned. -/
def registerOpened (unixOpenFileId : ℤ) : Sys c Unit := do
  if unixOpenFileId ≠ -1 then
    let nachosOpenFileId ← modifyGet fun k =>
      let (id, mytable) := k.mytable.Open unixOpenFileId
      (id, { k with mytable := mytable })
    if nachosOpenFileId ≠ -1 then writeRegister 2 (.ofInt 32 nachosOpenFileId)
  returnFromSystemCall

/-- `Nachos_Open`. -/
def nachosOpenUnix (w : World c) (fuel : ℕ) : UnixSys c Unit := do
  let r4 ← (readRegister 4 : Sys c _)
  let fileName ← (readString fuel 128 r4 : Sys c _)
  let unixOpenFileId ← unixOpenCall w (nameOf fileName)
  (registerOpened unixOpenFileId : Sys c Unit)

/-- All bits of the table are set. -/
def NachosOpenFilesTable.Full (t : NachosOpenFilesTable) : Prop :=
  ∀ i : Fin MAX_FILES, t.openFilesMap.isSet i = true

/-- What `Open` has to report, when `open` returned `fd`.  `ds` and `ds'` are the open
descriptors. -/
def OpenReported (fd : ℤ) (k k' : SysState c) (ds ds' : List ℤ) : Prop :=
  (fd = -1 ∨ k.mytable.Full →
    k'.registers 2 = -1 ∧ k'.mytable.isOpened (k'.registers 2).toInt = false ∧
      k'.mytable = k.mytable ∧ ds' = ds) ∧
  (¬ (fd = -1 ∨ k.mytable.Full) →
    k.mytable.isOpened (k'.registers 2).toInt = false ∧
      k'.mytable.isOpened (k'.registers 2).toInt = true ∧
      k'.mytable.getUnixHandle (k'.registers 2).toInt = fd)

/-! ### The open-file table -/

theorem NachosOpenFilesTable.open_full {t : NachosOpenFilesTable} (h : t.Full) (fd : ℤ) :
    t.Open fd = (-1, t) := by
  unfold Open
  split
  · rename_i free openFilesMap hf
    have hclear := (BitMap.find_some hf).1
    rw [h free] at hclear
    cases hclear
  · rfl

theorem NachosOpenFilesTable.open_free {t : NachosOpenFilesTable} (h : ¬ t.Full) (fd : ℤ) :
    ∃ free : Fin MAX_FILES, (t.Open fd).1 = (free : ℕ) ∧ t.isOpened (free : ℕ) = false ∧
      (t.Open fd).2.isOpened (free : ℕ) = true ∧ (t.Open fd).2.getUnixHandle (free : ℕ) = fd := by
  unfold Open
  split
  · rename_i free openFilesMap hf
    obtain ⟨hclear, -, rfl⟩ := BitMap.find_some hf
    have hrange : (0 : ℤ) ≤ (free : ℕ) ∧ ((free : ℕ) : ℤ) < MAX_FILES := by
      have := free.isLt
      omega
    have hopened : ∀ t' : NachosOpenFilesTable,
        t'.isOpened (free : ℕ) = t'.openFilesMap.isSet free := by
      intro t'
      unfold isOpened
      rw [if_pos hrange, Int.toNat_natCast]
    refine ⟨free, rfl, (hopened t).trans hclear, ?_, ?_⟩
    · rw [hopened]
      simp
    · unfold getUnixHandle
      rw [dif_pos (by simp), if_pos (by rw [hopened]; simp)]
      simp
  · rename_i map hf
    exact absurd (fun i => (BitMap.find_none hf).1 i) h

/-! ### Runs -/

/-- Code of the handler that does not touch the descriptors. -/
theorem lift_bind_run {α β : Type} {m : Sys c α} {f : α → UnixSys c β} {ds : List ℤ}
    {k k' : SysState c} {a : α} (h : m k = .ok (a, k')) :
    ((liftM m : UnixSys c α) >>= f) ds k = f a ds k' := by
  show (m >>= fun a => (pure (a, ds) : Sys c _)) k >>= _ = _
  rw [bind_run h]
  rfl

theorem lift_bind_error {α β : Type} {m : Sys c α} {f : α → UnixSys c β} {ds : List ℤ}
    {k : SysState c} {e : Stop} (h : m k = .error e) :
    ((liftM m : UnixSys c α) >>= f) ds k = .error e := by
  show (m >>= fun a => (pure (a, ds) : Sys c _)) k >>= _ = _
  rw [bind_error h]
  rfl

theorem unixOpenCall_run {α : Type} (w : World c) (name : String) (f : ℤ → UnixSys c α)
    (ds : List ℤ) (k : SysState c) :
    (unixOpenCall w name >>= f) ds k = f (w.unixOpen k.calls name)
      (if w.unixOpen k.calls name = -1 then ds else w.unixOpen k.calls name :: ds)
      { k with calls := k.calls + 1 } := by
  unfold unixOpenCall
  rw [bind_assoc, lift_bind_run (m := call) rfl]
  by_cases hfd : w.unixOpen k.calls name = -1
  · rw [if_neg (not_not.2 hfd), if_pos hfd]
    rfl
  · rw [if_pos hfd, if_neg hfd]
    rfl

theorem lift_run {α : Type} (m : Sys c α) (ds : List ℤ) (k : SysState c) :
    ((liftM m : UnixSys c α) ds k).map (fun p => (p.1.1, p.2)) = m k := by
  show ((m >>= fun a => (pure (a, ds) : Sys c _)) k).map _ = _
  cases hm : m k with
  | error e =>
    rw [bind_error hm]
    rfl
  | ok p =>
    rw [bind_run hm]
    rfl

/-- The handler does to the kernel what the handler of the system call does. -/
theorem nachosOpenUnix_erase (w : World c) (fuel : ℕ) (ds : List ℤ) (k : SysState c) :
    (nachosOpenUnix w fuel ds k).map (fun p => (p.1.1, p.2)) = nachosOpen w fuel k := by
  unfold nachosOpenUnix nachosOpen
  rw [lift_bind_run (m := readRegister 4) (a := k.registers 4) rfl,
    bind_run (m := readRegister 4) (a := k.registers 4) rfl]
  cases hname : readString fuel 128 (k.registers 4) k with
  | error e =>
    rw [bind_error hname, lift_bind_error hname]
    rfl
  | ok p =>
    obtain ⟨fileName, k₁⟩ := p
    rw [lift_bind_run hname, bind_run hname, unixOpenCall_run, bind_run (m := call) rfl]
    exact lift_run (registerOpened _) _ _

/-- The exit of both failures: nothing is written. -/
theorem registerOpened_failed {fd : ℤ} {k : SysState c} (h : fd = -1 ∨ k.mytable.Full) :
    ∃ k', registerOpened fd k = .ok ((), k') ∧ k'.registers 2 = k.registers 2 ∧
      k'.mytable = k.mytable := by
  unfold registerOpened
  by_cases hfd : fd = -1
  · rw [if_neg (not_not.2 hfd)]
    obtain ⟨k', hret, hr2, hrest⟩ := returnFromSystemCall_run k
    exact ⟨k', hret, hr2, by rw [hrest]⟩
  · have hopen := NachosOpenFilesTable.open_full (h.resolve_left hfd) fd
    rw [if_pos hfd, bind_run (a := -1) (t := k) (by
      show Except.ok ((k.mytable.Open fd).1, { k with mytable := (k.mytable.Open fd).2 }) = _
      rw [hopen])]
    obtain ⟨k', hret, hr2, hrest⟩ := returnFromSystemCall_run k
    exact ⟨k', hret, hr2, by rw [hrest]⟩

/-- The other exit: the number of the free place, and the descriptor in it. -/
theorem registerOpened_found {fd : ℤ} {k : SysState c} (hfd : fd ≠ -1) (h : ¬ k.mytable.Full) :
    ∃ k', registerOpened fd k = .ok ((), k') ∧
      k.mytable.isOpened (k'.registers 2).toInt = false ∧
      k'.mytable.isOpened (k'.registers 2).toInt = true ∧
      k'.mytable.getUnixHandle (k'.registers 2).toInt = fd := by
  obtain ⟨free, hid, hclosed, hopened, hhandle⟩ := NachosOpenFilesTable.open_free h fd
  unfold registerOpened
  rw [if_pos hfd, bind_run (a := ((free : ℕ) : ℤ))
    (t := { k with mytable := (k.mytable.Open fd).2 }) (by
      show Except.ok ((k.mytable.Open fd).1, { k with mytable := (k.mytable.Open fd).2 }) = _
      rw [hid]), if_pos (by omega), bind_run rfl]
  obtain ⟨k', hret, hr2, hrest⟩ := returnFromSystemCall_run (c := c)
    { k with
      mytable := (k.mytable.Open fd).2
      registers := Function.update k.registers 2 (.ofInt 32 (free : ℕ)) }
  have hint : (k'.registers 2).toInt = (free : ℕ) := by
    rw [hr2]
    dsimp only
    rw [Function.update_self]
    have hlt : (free : ℕ) < 128 := free.isLt
    exact BitVec.toInt_ofInt_eq_self (by decide) (by omega) (by omega)
  refine ⟨k', hret, ?_, ?_, ?_⟩
  · rw [hint]
    exact hclosed
  · rw [hint, hrest]
    exact hopened
  · rw [hint, hrest]
    exact hhandle

/-- **`Open` reports what it did exactly when `open` succeeds and the table has a free place.**  The
name is one that the handler can copy. -/
theorem open_reported_iff (w : World c) {fuel : ℕ} (ds : List ℤ) {k k₁ : SysState c}
    {fileName : List Byte} (hcode : k.registers 2 = 5) (hsettled : k.registers.Settled)
    (hname : readString fuel 128 (k.registers 4) k = .ok (fileName, k₁)) :
    ∃ ds' k', nachosOpenUnix w fuel ds k = .ok (((), ds'), k') ∧
      (OpenReported (w.unixOpen k.calls (nameOf fileName)) k k' ds ds' ↔
        w.unixOpen k.calls (nameOf fileName) ≠ -1 ∧ ¬ k.mytable.Full) := by
  have hcopied := readString_copied fuel 128 (k.registers 4) k fileName k₁ hname
  have hcalls : k₁.calls = k.calls := by rw [hcopied.rest]
  have htable : k₁.mytable = k.mytable := by rw [hcopied.rest]
  have hr2 : k₁.registers 2 = 5 :=
    (hcopied.registers hsettled 2 (by decide)).trans hcode
  have hrun : nachosOpenUnix w fuel ds k =
      (registerOpened (w.unixOpen k.calls (nameOf fileName)) >>= fun _ => pure ((),
        if w.unixOpen k.calls (nameOf fileName) = -1 then ds
        else w.unixOpen k.calls (nameOf fileName) :: ds) : Sys c _)
        { k₁ with calls := k₁.calls + 1 } := by
    unfold nachosOpenUnix
    rw [lift_bind_run (m := readRegister 4) (a := k.registers 4) rfl, lift_bind_run hname,
      unixOpenCall_run, hcalls]
    rfl
  by_cases hfail : w.unixOpen k.calls (nameOf fileName) = -1 ∨ k.mytable.Full
  · have hfail₁ : w.unixOpen k.calls (nameOf fileName) = -1 ∨
        ({ k₁ with calls := k₁.calls + 1 } : SysState c).mytable.Full := by
      rw [htable]
      exact hfail
    obtain ⟨k', hreg, hr2', -⟩ := registerOpened_failed hfail₁
    refine ⟨_, k', by rw [hrun, bind_run hreg]; rfl, iff_of_false (fun hrep => ?_) (by tauto)⟩
    -- `r2` is still the code of the system call
    have h1 := (hrep.1 hfail).1
    rw [hr2', hr2] at h1
    exact absurd h1 (by decide)
  · obtain ⟨hfd, hfull⟩ := not_or.1 hfail
    obtain ⟨k', hreg, hfound⟩ := registerOpened_found (k := { k₁ with calls := k₁.calls + 1 }) hfd
      (by rw [htable]; exact hfull)
    refine ⟨_, k', by rw [hrun, bind_run hreg]; rfl,
      iff_of_true ⟨fun h => absurd h hfail, fun _ => ?_⟩ ⟨hfd, hfull⟩⟩
    rw [htable] at hfound
    exact hfound

/-- A program calls `Open` with the string at address 0 and the given map of open files. -/
def callsOpen (openFilesMap : BitMap MAX_FILES) : SysState machineH :=
  { callsWrite 0 with
    registers := fun i => if i = 2 then 5 else if i = PCReg then 8 else
      if i = NextPCReg then 12 else 0
    mytable := ⟨fun _ => 0, openFilesMap, 1⟩ }

/-- `open` returns `fd`. -/
def opens (fd : ℤ) : World machineH := { quiet with unixOpen := fun _ _ => fd }

/-- `open` returns 7, and the table has a free place. -/
theorem open_reported_seven : ∃ ds' k', nachosOpenUnix (opens 7) 2 [] (callsOpen ⟨fun _ => 7⟩) =
    .ok (((), ds'), k') ∧ OpenReported 7 (callsOpen ⟨fun _ => 7⟩) k' [] ds' := by
  obtain ⟨p, hname, -⟩ := exists_ok (readString 2 128 ((callsOpen ⟨fun _ => 7⟩).registers 4)
    (callsOpen ⟨fun _ => 7⟩)) (fun _ => True) (by decide +kernel)
  have hsettled : (callsOpen ⟨fun _ => 7⟩).registers.Settled := rfl
  obtain ⟨ds', k', hrun, hiff⟩ := open_reported_iff (opens 7) [] rfl hsettled hname
  refine ⟨ds', k', hrun, hiff.2 ⟨show (7 : ℤ) ≠ -1 by decide, fun hfull => ?_⟩⟩
  exact absurd (hfull 3) (by decide)

/-- `Open` of a file that does not exist returns 5; and when the table is full it returns 5 too,
and leaves the UNIX descriptor open. -/
theorem open_failure_unreported :
    (∃ k', nachosOpenUnix quiet 2 [] (callsOpen ⟨fun _ => 7⟩) = .ok (((), []), k') ∧
      k'.registers 2 = 5 ∧ ¬ OpenReported (-1) (callsOpen ⟨fun _ => 7⟩) k' [] []) ∧
    ∃ k', nachosOpenUnix (opens 7) 2 [] (callsOpen ⟨fun _ => -1⟩) = .ok (((), [7]), k') ∧
      k'.registers 2 = 5 ∧ ¬ OpenReported 7 (callsOpen ⟨fun _ => -1⟩) k' [] [7] := by
  constructor
  · obtain ⟨⟨⟨_, ds⟩, k'⟩, hrun, rfl, hr2⟩ := exists_ok
      (nachosOpenUnix quiet 2 [] (callsOpen ⟨fun _ => 7⟩))
      (fun p => p.1.2 = [] ∧ p.2.registers 2 = 5) (by decide +kernel)
    refine ⟨k', hrun, hr2, fun hrep => ?_⟩
    have h1 := (hrep.1 (Or.inl rfl)).1
    rw [hr2] at h1
    exact absurd h1 (by decide)
  · obtain ⟨⟨⟨_, ds⟩, k'⟩, hrun, rfl, hr2⟩ := exists_ok
      (nachosOpenUnix (opens 7) 2 [] (callsOpen ⟨fun _ => -1⟩))
      (fun p => p.1.2 = [7] ∧ p.2.registers 2 = 5) (by decide +kernel)
    refine ⟨k', hrun, hr2, fun hrep => ?_⟩
    have h1 := (hrep.1 (Or.inr (by unfold NachosOpenFilesTable.Full; decide))).1
    rw [hr2] at h1
    exact absurd h1 (by decide)

end Nachos
