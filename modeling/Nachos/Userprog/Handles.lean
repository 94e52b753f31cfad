import Nachos.Userprog.ProgramCounter

/-!
# What a file handle means

The system calls `Open`, `Close`, `Read` and `Write` of the threads that share one table of open
files.

* `readTarget` and `writeTarget` say where a call reads and writes, from the table and the handle;
  `nachosRead_eq` and `writeSwitch_eq` say that the handlers do what the target says.
* `Files` is the table with the handles that `Open` has returned and that have not been closed, and
  the UNIX descriptors that they were returned for.
* The files of the console are bits 0, 1 and 2 of the map.  `Close` clears them like any other bit,
  and then `Open` returns them; `Read` and `Write` look at the handle before they look at the table.
-/

namespace Nachos

open Function Transition

/-- Where a call of `Read` or `Write` goes. -/
inductive FileTarget
  | console
  | unix (fd : ℤ)
  -- a file of the console that is not for this, or a file that is not open
  | wrongWay
  | notOpen
  deriving DecidableEq, Repr

variable {id : ℤ}

namespace NachosOpenFilesTable

variable (t : NachosOpenFilesTable)

/-- The `default` of both `switch`es. -/
def fileTarget (id : ℤ) : FileTarget :=
  if t.isOpened id then .unix (t.getUnixHandle id) else .notOpen

/-- The `switch` of `Nachos_Read`. -/
def readTarget (id : ℤ) : FileTarget :=
  match id with
  | 0 => .console
  | 1 | 2 => .wrongWay
  | _ => t.fileTarget id

/-- The `switch` of `Nachos_Write`. -/
def writeTarget (id : ℤ) : FileTarget :=
  match id with
  | 0 => .wrongWay
  | 1 | 2 => .console
  | _ => t.fileTarget id

theorem readTarget_of_file (h0 : id ≠ 0) (h1 : id ≠ 1) (h2 : id ≠ 2) :
    t.readTarget id = t.fileTarget id := by
  unfold readTarget
  split <;> first | contradiction | rfl

theorem writeTarget_of_file (h0 : id ≠ 0) (h1 : id ≠ 1) (h2 : id ≠ 2) :
    t.writeTarget id = t.fileTarget id := by
  unfold writeTarget
  split <;> first | contradiction | rfl

/-- What `Nachos_Open` does to the table when UNIX answers `unixOpenFileId`, and the handle that it
returns if it succeeds. -/
def register (unixOpenFileId : ℤ) : Option ℤ × NachosOpenFilesTable :=
  if unixOpenFileId = -1 then (none, t)
  else if (t.Open unixOpenFileId).1 = -1 then (none, (t.Open unixOpenFileId).2)
  else (some (t.Open unixOpenFileId).1, (t.Open unixOpenFileId).2)

end NachosOpenFilesTable

/-! ### The system calls -/

section syscalls

open Fallible

variable {c : Sizes} {w : World c} {fuel : ℕ} {k k' : SysState c}

/-- `Nachos_Read` from its target. -/
def readFrom (w : World c) (fuel : ℕ) (r4 : BitVec 32) (size : ℕ) : FileTarget → Sys c Unit
  | .console => readConsole w fuel r4 size
  | .unix fd => do
    match w.unixRead (← call) fd size with
    | some bytes =>
      writeBytes fuel r4 bytes
      writeRegister 2 (.ofNat 32 bytes.length)
    | none => writeRegister 2 (-1)
  | .wrongWay => pure ()
  | .notOpen => writeRegister 2 (-1)

/-- `Nachos_Write` to the console: the text, or the number. -/
def writeConsole (w : World c) (buffer : List Byte) (size : ℕ) (id : ℤ) : Sys c Unit :=
  if id = 1 then do
    let text ← orFault (cString buffer)
    modify fun k => { k with
      output := k.output ++ [.text text]
      numConsoleCharsWritten := k.numConsoleCharsWritten + text.length }
    writeLeave w size
  else do
    let r4 ← readRegister 4
    modify fun k => { k with output := k.output ++ [.number r4.toInt] }
    writeLeave w 1

/-- `Nachos_Write` to its target. -/
def writeTo (w : World c) (buffer : List Byte) (size : ℕ) (id : ℤ) : FileTarget → Sys c Unit
  | .console => writeConsole w buffer size id
  | .unix fd => do
    let charCounter := w.unixWrite (← call) fd (buffer.take size)
    writeRegister 2 (.ofInt 32 charCounter)
    writeLeave w size
  | .wrongWay => do
    writeRegister 2 (-1)
    writeLeave w 0
  | .notOpen => writeRegister 2 (-1)

theorem readFile_eq (r4 : BitVec 32) (size : ℕ) (id : ℤ) :
    readFile w fuel r4 size id k = readFrom w fuel r4 size (k.mytable.fileTarget id) k := by
  show (if k.mytable.isOpened id then _ else _ : Sys c Unit) k = _
  unfold NachosOpenFilesTable.fileTarget
  split <;> rfl

/-- `Nachos_Read` does what its target says. -/
theorem nachosRead_eq : nachosRead w fuel k = (do
    let r4 ← readRegister 4
    let size ← orFault (bufferSize (← readRegister 5))
    let id := (← readRegister 6).toInt
    readFrom w fuel r4 size ((← get).mytable.readTarget id)
    returnFromSystemCall : Sys c Unit) k := by
  unfold nachosRead
  refine bind_congr rfl fun r4 k₁ _ => bind_congr rfl fun r5 k₂ _ => bind_congr rfl fun size k₃ _ =>
    bind_congr rfl fun r6 k₄ _ => ?_
  have hget : ∀ f : SysState c → Sys c Unit, (get >>= f) k₄ = f k₄ k₄ := fun _ => rfl
  rw [hget]
  generalize r6.toInt = id
  split
  · rfl
  · rfl
  · rfl
  · rename_i h0 h1 h2
    rw [NachosOpenFilesTable.readTarget_of_file _ h0 h1 h2]
    exact bind_congr (readFile_eq r4 size _) fun _ _ _ => rfl

/-- `Nachos_Write` does what its target says. -/
theorem writeSwitch_eq (buffer : List Byte) (size : ℕ) (id : ℤ) :
    writeSwitch w buffer size id k = writeTo w buffer size id (k.mytable.writeTarget id) k := by
  unfold writeSwitch
  split
  · rfl
  · rfl
  · rfl
  · rename_i h0 h1 h2
    rw [NachosOpenFilesTable.writeTarget_of_file _ h0 h1 h2]
    show (if k.mytable.isOpened id then _ else _ : Sys c Unit) k = _
    unfold NachosOpenFilesTable.fileTarget
    split <;> rfl

theorem returnFromSystemCall_keeps (h : returnFromSystemCall k = .ok ((), k')) :
    k'.mytable = k.mytable ∧ k'.registers 2 = k.registers 2 := by
  cases h
  exact ⟨rfl, rfl⟩

/-- `Nachos_Open` registers what UNIX answers, and returns the handle in r2. -/
theorem nachosOpen_register (h : nachosOpen w fuel k = .ok ((), k')) :
    ∃ unixOpenFileId, k'.mytable = (k.mytable.register unixOpenFileId).2 ∧
      ∀ id, (k.mytable.register unixOpenFileId).1 = some id → k'.registers 2 = .ofInt 32 id := by
  obtain ⟨r4, k₁, h₁, h⟩ := bind_eq_ok.1 h
  cases h₁
  obtain ⟨fileName, k₁, h₁, h⟩ := bind_eq_ok.1 h
  obtain ⟨registers, status, vm, rfl⟩ := readString_memoryOnly fuel 128 _ _ _ _ h₁
  obtain ⟨n, k₂, h₂, h⟩ := bind_eq_ok.1 h
  cases h₂
  refine ⟨w.unixOpen k.calls (nameOf fileName), ?_⟩
  dsimp only at h
  unfold NachosOpenFilesTable.register
  by_cases hu : w.unixOpen k.calls (nameOf fileName) = -1
  · rw [if_pos hu]
    rw [if_neg (not_not.2 hu)] at h
    exact ⟨(returnFromSystemCall_keeps h).1, by simp⟩
  rw [if_neg hu]
  rw [if_pos hu] at h
  obtain ⟨id, k₃, h₃, h⟩ := bind_eq_ok.1 h
  cases h₃
  by_cases hid : (k.mytable.Open (w.unixOpen k.calls (nameOf fileName))).1 = -1
  · rw [if_pos hid]
    rw [if_neg (not_not.2 hid)] at h
    exact ⟨(returnFromSystemCall_keeps h).1, by simp⟩
  · rw [if_neg hid]
    rw [if_pos hid] at h
    obtain ⟨_, k₄, h₄, h⟩ := bind_eq_ok.1 h
    cases h₄
    obtain ⟨hm, hr⟩ := returnFromSystemCall_keeps h
    refine ⟨hm, ?_⟩
    rintro id ⟨⟩
    exact hr

/-- `Nachos_Close` closes the handle in r4. -/
theorem nachosClose_close (h : nachosClose w k = .ok ((), k')) :
    k'.mytable = (k.mytable.Close (k.registers 4).toInt).2 := by
  cases h
  rfl

end syscalls

/-! ### Runs -/

/-- The table, and the handles in use. -/
structure Files where
  mytable : NachosOpenFilesTable
  -- history: the handles that were returned and not closed since, with the UNIX descriptors
  handles : List (ℤ × ℤ)

/-- The system calls; `Open` with what UNIX answers. -/
inductive FileCall
  | Open (unixOpenFileId : ℤ)
  | Close (id : ℤ)
  | Read (id : ℤ)
  | Write (id : ℤ)
  deriving DecidableEq, Repr

/-- What a call does; `Read` and `Write` leave the table as it is. -/
def FileCall.perform (s : Files) : FileCall → Files
  | Open unixOpenFileId =>
    { mytable := (s.mytable.register unixOpenFileId).2
      handles := match (s.mytable.register unixOpenFileId).1 with
        | some id => (id, unixOpenFileId) :: s.handles
        | none => s.handles }
  | Close id =>
    { mytable := (s.mytable.Close id).2
      handles := s.handles.filter fun p => p.1 ≠ id }
  | Read _ => s
  | Write _ => s

/-- One call. -/
def FileStep (s : Files) (e : FileCall) (s' : Files) : Prop := s' = e.perform s

/-- The table of a new thread. -/
def FilesInit (s : Files) : Prop := ∃ usage words, s = ⟨.new usage words, []⟩

/-- The states of all runs. -/
def FilesReach (s : Files) : Prop := Reach FilesInit FileStep s

/-- A call that does not close a file of the console. -/
def FileCall.keepsConsole : FileCall → Prop
  | Close id => id ≠ 0 ∧ id ≠ 1 ∧ id ≠ 2
  | _ => True

/-- The states of the runs of such calls. -/
def ConsoleReach (s : Files) : Prop :=
  Reach FilesInit (fun s e s' => e.keepsConsole ∧ FileStep s e s') s

theorem ConsoleReach.reach {s : Files} (h : ConsoleReach s) : FilesReach s :=
  Reach.mono (fun _ _ _ hst => hst.2) h

/-! ### The table -/

namespace NachosOpenFilesTable

variable {t : NachosOpenFilesTable} {x : Fin MAX_FILES}

@[simp] theorem isOpened_fin : t.isOpened ((x : ℕ) : ℤ) = t.openFilesMap.isSet x := by
  have hx := x.isLt
  unfold isOpened
  rw [if_pos (by omega), Int.toNat_natCast]

theorem exists_of_isOpened (h : t.isOpened id = true) :
    ∃ x : Fin MAX_FILES, id = (x : ℕ) ∧ t.openFilesMap.isSet x = true := by
  unfold isOpened at h
  split_ifs at h with hr
  have hid : ((id.toNat : ℕ) : ℤ) = id := Int.toNat_of_nonneg hr.1
  exact ⟨⟨id.toNat, by omega⟩, hid.symm, h⟩

/-- A place in use is a file. -/
theorem fileTarget_fin (h : t.openFilesMap.isSet x = true) :
    t.fileTarget ((x : ℕ) : ℤ) = .unix (t.openFiles x) := by
  have hget : t.getUnixHandle ((x : ℕ) : ℤ) = t.openFiles x := by
    simp [getUnixHandle, h]
  rw [fileTarget, isOpened_fin, if_pos h, hget]

/-- `Nachos_Open` takes the first place that is free, or changes nothing. -/
theorem register_cases (t : NachosOpenFilesTable) (unixOpenFileId : ℤ) :
    t.register unixOpenFileId = (none, t) ∨
    ∃ x : Fin MAX_FILES, t.openFilesMap.isSet x = false ∧
      t.register unixOpenFileId = (some ((x : ℕ) : ℤ), { t with
        openFiles := update t.openFiles x unixOpenFileId
        openFilesMap := t.openFilesMap.setBit x }) := by
  unfold register
  by_cases hu : unixOpenFileId = -1
  · exact Or.inl (if_pos hu)
  rw [if_neg hu]
  cases hf : t.openFilesMap.find with
  | mk found openFilesMap =>
    cases found with
    | none =>
      have hopen : t.Open unixOpenFileId = (-1, t) := by simp only [Open, hf]
      rw [hopen]
      exact Or.inl (if_pos rfl)
    | some x =>
      obtain ⟨hx, -, rfl⟩ := BitMap.find_some hf
      have hopen : t.Open unixOpenFileId = (((x : ℕ) : ℤ), { t with
          openFiles := update t.openFiles x unixOpenFileId
          openFilesMap := t.openFilesMap.setBit x }) := by simp only [Open, hf]
      rw [hopen]
      exact Or.inr ⟨x, hx, if_neg (by dsimp only; omega)⟩

/-- `Close` clears the place of an open file, or changes nothing. -/
theorem close_cases (t : NachosOpenFilesTable) (id : ℤ) :
    (t.isOpened id = false ∧ (t.Close id).2 = t) ∨
    ∃ x : Fin MAX_FILES, id = (x : ℕ) ∧ (t.Close id).2 = { t with
      openFiles := update t.openFiles x 0
      openFilesMap := t.openFilesMap.clearBit x } := by
  unfold Close
  split_ifs with ho
  · obtain ⟨x, rfl, -⟩ := exists_of_isOpened ho
    refine Or.inr ⟨x, rfl, ?_⟩
    have hfiles : (fun y : Fin MAX_FILES => if ((y : ℕ) : ℤ) = ((x : ℕ) : ℤ) then 0 else
        t.openFiles y) = update t.openFiles x 0 := by
      funext y
      by_cases hy : y = x
      · simp [hy]
      · have hne : ((y : ℕ) : ℤ) ≠ ((x : ℕ) : ℤ) := fun he => hy (Fin.ext (Int.ofNat.inj he))
        rw [if_neg hne, update_of_ne hy]
    rw [hfiles, Int.toNat_natCast]
  · exact Or.inl ⟨by simpa using ho, rfl⟩

end NachosOpenFilesTable

/-! ### The invariant -/

/-- Every handle in use is a place in use with its descriptor, and no two are the same. -/
structure HandlesInv (s : Files) : Prop where
  place : ∀ p ∈ s.handles, ∃ x : Fin MAX_FILES, p.1 = (x : ℕ) ∧
    s.mytable.openFilesMap.isSet x = true ∧ s.mytable.openFiles x = p.2
  once : (s.handles.map Prod.fst).Nodup

/-- The files of the console are open. -/
def ConsoleKept (s : Files) : Prop := ∀ x < 3, s.mytable.openFilesMap.isSet x = true

section invariant

variable {s s' : Files}

theorem HandlesInv.performOpen (h : HandlesInv s) (fd : ℤ) :
    HandlesInv ((FileCall.Open fd).perform s) := by
  rcases s.mytable.register_cases fd with hr | ⟨x, hx, hr⟩
  · simp only [FileCall.perform, hr]
    exact h
  · -- the place was free, so that no handle in use is this one
    have hnew : ∀ p ∈ s.handles, p.1 ≠ ((x : ℕ) : ℤ) := by
      intro p hp he
      obtain ⟨y, hy, hset, -⟩ := h.place p hp
      have hyx : (y : ℕ) = x := by omega
      rw [hyx, hx] at hset
      cases hset
    simp only [FileCall.perform, hr]
    refine ⟨fun p hp => ?_, List.nodup_cons.2 ⟨fun hm => ?_, h.once⟩⟩
    · rcases List.mem_cons.1 hp with rfl | hold
      · exact ⟨x, rfl, by simp, update_self ..⟩
      · obtain ⟨y, hy, hset, hfd⟩ := h.place p hold
        have hyx : y ≠ x := by
          rintro rfl
          exact hnew p hold hy
        exact ⟨y, hy, by simp [hset], (update_of_ne hyx ..).trans hfd⟩
    · obtain ⟨p, hp, he⟩ := List.mem_map.1 hm
      exact hnew p hp he

theorem HandlesInv.performClose (h : HandlesInv s) (id : ℤ) :
    HandlesInv ((FileCall.Close id).perform s) := by
  have honce : ((s.handles.filter fun p => p.1 ≠ id).map Prod.fst).Nodup :=
    h.once.sublist (List.filter_sublist.map _)
  refine ⟨fun p hp => ?_, honce⟩
  obtain ⟨hp, hne⟩ := List.mem_filter.1 hp
  obtain ⟨y, hy, hset, hfd⟩ := h.place p hp
  rcases s.mytable.close_cases id with ⟨-, hc⟩ | ⟨x, rfl, hc⟩
  · simp only [FileCall.perform, hc]
    exact ⟨y, hy, hset, hfd⟩
  · have hyx : y ≠ x := by
      rintro rfl
      simp [hy] at hne
    simp only [FileCall.perform, hc]
    exact ⟨y, hy, by simp [hset, Fin.val_ne_of_ne hyx.symm],
      (update_of_ne hyx ..).trans hfd⟩

variable {e : FileCall} {fd : ℤ}

theorem HandlesInv.step (h : HandlesInv s) (hst : FileStep s e s') : HandlesInv s' := by
  subst hst
  cases e with
  | Open fd => exact h.performOpen fd
  | Close id => exact h.performClose id
  | Read id => exact h
  | Write id => exact h

theorem FilesReach.inv (h : FilesReach s) : HandlesInv s := by
  refine Reach.invariant (I := HandlesInv) ?_ (fun _ _ _ hs hst => hs.step hst) h
  rintro s ⟨usage, words, rfl⟩
  exact ⟨by simp, List.nodup_nil⟩

theorem ConsoleKept.step (h : ConsoleKept s) (he : e.keepsConsole) (hst : FileStep s e s') :
    ConsoleKept s' := by
  subst hst
  intro x hx
  cases e with
  | Open fd =>
    rcases s.mytable.register_cases fd with hr | ⟨y, -, hr⟩
    · simp only [FileCall.perform, hr]
      exact h x hx
    · simp only [FileCall.perform, hr, BitMap.isSet_setBit, h x hx, Bool.or_true]
  | Close id =>
    rcases s.mytable.close_cases id with ⟨-, hc⟩ | ⟨y, rfl, hc⟩
    · simp only [FileCall.perform, hc]
      exact h x hx
    · obtain ⟨h0, h1, h2⟩ := he
      have hyx : (y : ℕ) ≠ x := by omega
      simp [FileCall.perform, hc, h x hx, hyx]
  | Read id => exact h x hx
  | Write id => exact h x hx

theorem ConsoleReach.kept (h : ConsoleReach s) : ConsoleKept s := by
  refine Reach.invariant (I := ConsoleKept) ?_
    (fun _ _ _ hs hst => hs.step hst.1 hst.2) h
  rintro s ⟨usage, words, rfl⟩ x hx
  simp only [NachosOpenFilesTable.new, BitMap.isSet_setBit, Bool.or_eq_true, decide_eq_true_eq]
  omega

/-- `Open` returns a file, as long as those of the console are open. -/
theorem ConsoleKept.register (h : ConsoleKept s) (hr : (s.mytable.register fd).1 = some id) :
    id ≠ 0 ∧ id ≠ 1 ∧ id ≠ 2 := by
  rcases s.mytable.register_cases fd with hc | ⟨x, hx, hc⟩
  · rw [hc] at hr
    cases hr
  · rw [hc] at hr
    cases hr
    have hx3 : ¬ (x : ℕ) < 3 := by
      intro hlt
      rw [h x hlt] at hx
      cases hx
    omega

/-- A handle in use was in use before, or `Open` has returned it. -/
theorem FileCall.mem_handles (hm : (id, fd) ∈ (e.perform s).handles) :
    (id, fd) ∈ s.handles ∨ (s.mytable.register fd).1 = some id := by
  cases e with
  | Open fd' =>
    simp only [FileCall.perform] at hm
    split at hm
    · rename_i id' hr
      rcases List.mem_cons.1 hm with he | hm
      · cases he
        exact Or.inr hr
      · exact Or.inl hm
    · exact Or.inl hm
  | Close id' => exact Or.inl (List.mem_filter.1 hm).1
  | Read id' => exact Or.inl hm
  | Write id' => exact Or.inl hm

/-- The handles in use are not of the console. -/
theorem ConsoleReach.console (h : ConsoleReach s) :
    ∀ id fd, (id, fd) ∈ s.handles → id ≠ 0 ∧ id ≠ 1 ∧ id ≠ 2 := by
  induction h with
  | init hi =>
    obtain ⟨usage, words, rfl⟩ := hi
    simp
  | step e hr hst ih =>
    obtain ⟨-, rfl⟩ := hst
    intro id fd hm
    rcases FileCall.mem_handles hm with hm | hreg
    · exact ih id fd hm
    · exact (ConsoleReach.kept hr).register hreg

/-- A handle in use that is not of the console means its file. -/
theorem HandlesInv.target (h : HandlesInv s) (hm : (id, fd) ∈ s.handles) (h0 : id ≠ 0) (h1 : id ≠ 1)
    (h2 : id ≠ 2) : s.mytable.readTarget id = .unix fd ∧ s.mytable.writeTarget id = .unix fd := by
  rw [NachosOpenFilesTable.readTarget_of_file _ h0 h1 h2,
    NachosOpenFilesTable.writeTarget_of_file _ h0 h1 h2]
  obtain ⟨x, rfl, hset, hfd⟩ := h.place _ hm
  rw [NachosOpenFilesTable.fileTarget_fin hset, hfd]
  exact ⟨rfl, rfl⟩

/-- A handle of the console never does: `Read` and `Write` do not look into the table. -/
theorem HandlesInv.target_iff (h : HandlesInv s) (hm : (id, fd) ∈ s.handles) :
    (s.mytable.readTarget id = .unix fd ∧ s.mytable.writeTarget id = .unix fd) ↔
      id ≠ 0 ∧ id ≠ 1 ∧ id ≠ 2 := by
  constructor
  · rintro ⟨hread, -⟩
    refine ⟨?_, ?_, ?_⟩ <;> rintro rfl <;> cases hread
  · rintro ⟨h0, h1, h2⟩
    exact h.target hm h0 h1 h2

end invariant

/-- **A handle means the file it was opened for**, in the runs that do not close the files of the
console: `Read` and `Write` go to the UNIX descriptor that the handle was returned for, two handles
in use are different, and `Open` returns no file of the console.  In any run, two handles in use are
different, and a handle means its file if and only if it is not 0, 1 or 2. -/
theorem handle_means_file (s : Files) :
    (ConsoleReach s →
      (∀ id fd, (id, fd) ∈ s.handles →
        s.mytable.readTarget id = .unix fd ∧ s.mytable.writeTarget id = .unix fd) ∧
      (s.handles.map Prod.fst).Nodup ∧
      ∀ fd id, (s.mytable.register fd).1 = some id → id ≠ 0 ∧ id ≠ 1 ∧ id ≠ 2) ∧
    (FilesReach s → (s.handles.map Prod.fst).Nodup ∧
      ∀ id fd, (id, fd) ∈ s.handles →
        ((s.mytable.readTarget id = .unix fd ∧ s.mytable.writeTarget id = .unix fd) ↔
          id ≠ 0 ∧ id ≠ 1 ∧ id ≠ 2)) := by
  refine ⟨fun h => ⟨fun id fd hm => ?_, h.reach.inv.once, fun fd id => h.kept.register⟩,
    fun h => ⟨h.inv.once, fun id fd hm => h.inv.target_iff hm⟩⟩
  obtain ⟨h0, h1, h2⟩ := h.console id fd hm
  exact h.reach.inv.target hm h0 h1 h2

/-- The table of a new thread. -/
def newFiles : Files := ⟨.new 1 fun _ => 0, []⟩

theorem newFiles_init : FilesInit newFiles := ⟨_, _, rfl⟩

instance FileCall.decidableKeepsConsole (e : FileCall) : Decidable e.keepsConsole := by
  cases e <;> unfold keepsConsole <;> infer_instance

/-- Two files are opened, and the first is closed. -/
theorem handle_means_file_second :
    ∃ s, ConsoleReach s ∧ s.handles = [(4, 9)] ∧ s.mytable.writeTarget 4 = .unix 9 := by
  obtain ⟨s, hr, hh⟩ : ∃ s, ConsoleReach s ∧ s.handles = [(4, 9)] :=
    Reach.exists_run
      (exec_step (fun _ e => FileCall.keepsConsole e) FileCall.perform)
      (.init newFiles_init) [.Open 8, .Open 9, .Write 3, .Close 3] (by decide +kernel)
  exact ⟨s, hr, hh, (((handle_means_file s).1 hr).1 4 9 (by simp [hh])).2⟩

/-- `ConsoleOutput` is closed, and then a file is opened: its handle is `ConsoleOutput`, and what is
written to it goes to the console. -/
theorem handle_of_console : ∃ s, FilesReach s ∧ s.handles = [(1, 8)] ∧
    s.mytable.writeTarget 1 = .console ∧ s.mytable.readTarget 1 = .wrongWay := by
  obtain ⟨s, hr, hh⟩ : ∃ s, FilesReach s ∧ s.handles = [(1, 8)] :=
    Reach.exists_run (f := fun s e => some (FileCall.perform s e))
      (fun _ _ _ h => (Option.some.inj h).symm) (.init newFiles_init) [.Close 1, .Open 8]
      (by decide +kernel)
  exact ⟨s, hr, hh, rfl, rfl⟩

end Nachos
