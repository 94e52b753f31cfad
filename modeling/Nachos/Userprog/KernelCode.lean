import Nachos.Userprog.Syscall

/-!
# System calls statement by statement

The handlers of `Nachos.Userprog.Syscall` run from their beginning to their end.  Here they are
given as what is left to execute: a tree with a node for every access to user memory and for every
statement where the thread can lose the CPU or the clock can tick.

* `Kcode` is the type of such trees.  Code in between, which does neither, is a node `act`.
* `Kcode.exec` runs a tree to its end, as the handlers do.
* `SysCall.code` gives the tree of every system call; `exec_code` says that it is the handler.
* `Kcode.Quiet`: the nodes `act` leave the machine's mode and the current thread alone.
-/

namespace Nachos

open Fallible Function

variable {c : Sizes}

/-- What is left of kernel code. -/
inductive Kcode (c : Sizes) (α : Type)
  | ret (a : α)
  | stop (e : Stop)
  -- other code: what it does, and what follows in the state before it
  | act (f : SysState c → SysState c) (k : SysState c → Kcode c α)
  -- `SafeReadMem` and `SafeWriteMem` of a byte
  | readMem (addr : BitVec 32) (k : BitVec 32 → Kcode c α)
  | writeMem (addr value : BitVec 32) (k : Kcode c α)
  | semP (sem : ℕ) (k : Kcode c α)
  -- `oldLevel = SetLevel(IntOff)`, `f`, `SetLevel(oldLevel)`
  | disabled (f : SysState c → SysState c) (k : Kcode c α)
  | fork (newT : ℕ) (k : Kcode c α)
  | yield (k : Kcode c α)

namespace Kcode

section

variable {α β : Type}

/-- One piece of code after the other. -/
def andThen (f : α → Kcode c β) : Kcode c α → Kcode c β
  | ret a => f a
  | stop e => stop e
  | act g k => act g fun s => andThen f (k s)
  | readMem addr k => readMem addr fun value => andThen f (k value)
  | writeMem addr value k => writeMem addr value (andThen f k)
  | semP sem k => semP sem (andThen f k)
  | disabled g k => disabled g (andThen f k)
  | fork newT k => fork newT (andThen f k)
  | yield k => yield (andThen f k)

instance : Monad (Kcode c) where
  pure := ret
  bind x f := andThen f x

/-- Code that neither reads user memory nor waits. -/
def lift (m : Sys c α) : Kcode c α :=
  act (fun s => match m s with
    | .ok (_, s') => s'
    | .error _ => s)
  fun s => match m s with
    | .ok (a, _) => ret a
    | .error e => stop e

/-- Run it to its end; while the thread is switched out the others run. -/
def exec (w : World c) (fuel : ℕ) : Kcode c α → Sys c α
  | ret a => pure a
  | stop e => throw e
  | act f k => fun s => exec w fuel (k s) (f s)
  | readMem addr k => sysReadMem fuel addr >>= fun value => exec w fuel (k value)
  | writeMem addr value k => sysWriteMem fuel addr value >>= fun _ => exec w fuel k
  | semP sem k => Nachos.semP w sem fuel >>= fun _ => exec w fuel k
  | disabled f k => modify f >>= fun _ => switchOut w >>= fun _ => exec w fuel k
  | fork _ k => switchOut w >>= fun _ => exec w fuel k
  | yield k => switchOut w >>= fun _ => exec w fuel k

variable (w : World c) (fuel : ℕ)

@[simp] theorem exec_pure (a : α) : (pure a : Kcode c α).exec w fuel = pure a := rfl

@[simp] theorem exec_stop (e : Stop) : (stop e : Kcode c α).exec w fuel = throw e := rfl

@[simp] theorem exec_bind (x : Kcode c α) (f : α → Kcode c β) :
    (x >>= f).exec w fuel = x.exec w fuel >>= fun a => (f a).exec w fuel := by
  show (andThen f x).exec w fuel = _
  induction x with
  | ret a => rfl
  | stop e => rfl
  | act g k ih =>
    funext s
    exact congrFun (ih s) (g s)
  | readMem addr k ih | writeMem addr value k ih | semP sem k ih | disabled g k ih
  | fork newT k ih | yield k ih => simp only [andThen, exec, ih, bind_assoc]

@[simp] theorem exec_lift (m : Sys c α) : (lift m : Kcode c α).exec w fuel = m := by
  funext s
  show (match m s with
    | .ok (a, _) => ret a
    | .error e => stop e : Kcode c α).exec w fuel
      (match m s with
      | .ok (_, s') => s'
      | .error _ => s) = m s
  cases m s with
  | ok p => rfl
  | error e => rfl

end

/-! ### User memory -/

/-- `Machine::SafeReadMem` of a byte. -/
def sysReadMem (addr : BitVec 32) : Kcode c (BitVec 32) := readMem addr ret

/-- `Machine::SafeWriteMem` of a byte. -/
def sysWriteMem (addr value : BitVec 32) : Kcode c Unit := writeMem addr value (ret ())

/-- The string at an address. -/
def readString : ℕ → BitVec 32 → Kcode c (List Byte)
  | 0, _ => stop (.fault .wildAccess)
  | room + 1, r4 => do
    let value ← sysReadMem r4
    if value = 0 then return []
    let rest ← readString room (r4 + 1)
    return value.setWidth 8 :: rest

/-- The next `n` bytes at an address. -/
def readBytes : ℕ → BitVec 32 → Kcode c (List Byte)
  | 0, _ => return []
  | n + 1, r4 => do
    let value ← sysReadMem r4
    let rest ← readBytes n (r4 + 1)
    return value.setWidth 8 :: rest

/-- Store bytes, one after the other. -/
def writeBytes : BitVec 32 → List Byte → Kcode c Unit
  | _, [] => return
  | r4, b :: bytes => do
    sysWriteMem r4 (b.signExtend 32)
    writeBytes (r4 + 1) bytes

/-! ### Threads and semaphores -/

/-- Change a semaphore. -/
def onSemaphore (sem : ℕ) (f : Semaphore → Semaphore) (s : SysState c) : SysState c :=
  { s with semaphores := update s.semaphores sem (f (s.semaphores sem)) }

/-- `Semaphore::V`. -/
def semV (sem : ℕ) : Kcode c Unit :=
  disabled (onSemaphore sem fun s => { value := s.value + 1, queue := s.queue.tail }) (ret ())

/-- `Semaphore::Destroy`. -/
def semDestroy (sem : ℕ) : Kcode c Unit :=
  disabled (onSemaphore sem fun s => { s with queue := [] }) (ret ())

section exec

variable (w : World c) (fuel : ℕ)

@[simp] theorem exec_sysReadMem (addr : BitVec 32) :
    (sysReadMem addr : Kcode c _).exec w fuel = Nachos.sysReadMem fuel addr := bind_pure _

@[simp] theorem exec_sysWriteMem (addr value : BitVec 32) :
    (sysWriteMem addr value : Kcode c _).exec w fuel = Nachos.sysWriteMem fuel addr value :=
  bind_pure _

@[simp] theorem exec_semP (sem : ℕ) :
    (semP sem (ret ()) : Kcode c _).exec w fuel = Nachos.semP w sem fuel := bind_pure _

@[simp] theorem exec_semV (sem : ℕ) :
    (semV sem : Kcode c _).exec w fuel = Nachos.semV w sem := by
  simp only [semV, exec, bind_pure_unit]
  rfl

@[simp] theorem exec_semDestroy (sem : ℕ) :
    (semDestroy sem : Kcode c _).exec w fuel = Nachos.semDestroy w sem := by
  simp only [semDestroy, exec, bind_pure_unit]
  rfl

@[simp] theorem exec_fork (newT : ℕ) :
    (fork newT (ret ()) : Kcode c _).exec w fuel = switchOut w := bind_pure _

@[simp] theorem exec_yield : (yield (ret ()) : Kcode c _).exec w fuel = switchOut w := bind_pure _

@[simp] theorem exec_readString (room : ℕ) (r4 : BitVec 32) :
    (readString room r4 : Kcode c _).exec w fuel = Nachos.readString fuel room r4 := by
  induction room generalizing r4 with
  | zero => rfl
  | succ room ih =>
    unfold readString Nachos.readString
    simp only [exec_bind, exec_sysReadMem]
    refine bind_congr fun value => ?_
    split_ifs
    · rfl
    · simp only [exec_bind, ih, exec_pure]

@[simp] theorem exec_readBytes (n : ℕ) (r4 : BitVec 32) :
    (readBytes n r4 : Kcode c _).exec w fuel = Nachos.readBytes fuel n r4 := by
  induction n generalizing r4 with
  | zero => rfl
  | succ n ih => simp only [readBytes, Nachos.readBytes, exec_bind, exec_sysReadMem, ih, exec_pure]

@[simp] theorem exec_writeBytes (r4 : BitVec 32) (bytes : List Byte) :
    (writeBytes r4 bytes : Kcode c _).exec w fuel = Nachos.writeBytes fuel r4 bytes := by
  induction bytes generalizing r4 with
  | nil => rfl
  | cons b bytes ih => simp only [writeBytes, Nachos.writeBytes, exec_bind, exec_sysWriteMem, ih]

end exec

/-! ### The handlers -/

section Handlers

variable (w : World c)

/-- `Nachos_Open`. -/
def nachosOpen : Kcode c Unit := do
  let r4 ← lift (readRegister 4)
  let fileName ← readString 128 r4
  lift do
    let unixOpenFileId := w.unixOpen (← call) (nameOf fileName)
    if unixOpenFileId ≠ -1 then
      let nachosOpenFileId ← modifyGet fun k =>
        let (id, mytable) := k.mytable.Open unixOpenFileId
        (id, { k with mytable := mytable })
      if nachosOpenFileId ≠ -1 then writeRegister 2 (.ofInt 32 nachosOpenFileId)
    returnFromSystemCall

/-- `Nachos_Read` from the console. -/
def readConsole (r4 : BitVec 32) (size : ℕ) : Kcode c Unit := do
  let bufferReader ← lift do
    let chars ← getchars w size
    let bufferReader ← orFault (cString (chars ++ [0]))
    modify fun k => { k with numConsoleCharsRead := k.numConsoleCharsRead + bufferReader.length }
    return bufferReader
  writeBytes r4 bufferReader
  lift (writeRegister 2 (.ofNat 32 bufferReader.length))

/-- `Nachos_Read` from a file. -/
def readFile (r4 : BitVec 32) (size : ℕ) (fileId : ℤ) : Kcode c Unit := do
  let k ← lift get
  if k.mytable.isOpened fileId then
    match w.unixRead (← lift call) (k.mytable.getUnixHandle fileId) size with
    | some bytes =>
      writeBytes r4 bytes
      lift (writeRegister 2 (.ofNat 32 bytes.length))
    | none => lift (writeRegister 2 (-1))
  else lift (writeRegister 2 (-1))

/-- `Nachos_Read`. -/
def nachosRead : Kcode c Unit := do
  let r4 ← lift (readRegister 4)
  let size ← lift do orFault (bufferSize (← readRegister 5))
  let fileId := (← lift (readRegister 6)).toInt
  match fileId with
  -- `ConsoleInput`
  | 0 => readConsole w r4 size
  -- `ConsoleOutput`, `ConsoleError`
  | 1 | 2 => pure ()
  | _ => readFile w r4 size fileId
  lift returnFromSystemCall

/-- `Nachos_Write` up to `Console->P()`. -/
def writeEnter : Kcode c (List Byte × ℕ × ℤ) := do
  let r4 ← lift (readRegister 4)
  let size ← lift do orFault (bufferSize (← readRegister 5))
  let bytes ← readBytes (max 1 size) r4
  let id ← lift (readRegister 6)
  semP Console (ret ())
  return (if size = 0 then bytes else bytes ++ [0], size, id.toInt)

/-- The end of `Nachos_Write`. -/
def writeLeave (size : ℤ) : Kcode c Unit := do
  lift (modify fun k => { k with numConsoleCharsWritten := k.numConsoleCharsWritten + size })
  semV Console
  lift returnFromSystemCall

/-- `Nachos_Write` to a file; the exit for a file that is not open is a `return`. -/
def writeFile (buffer : List Byte) (size : ℕ) (id : ℤ) : Kcode c Unit := do
  let k ← lift get
  if k.mytable.isOpened id then
    lift do
      let charCounter := w.unixWrite (← call) (k.mytable.getUnixHandle id) (buffer.take size)
      writeRegister 2 (.ofInt 32 charCounter)
    writeLeave size
  else lift (writeRegister 2 (-1))

/-- `Nachos_Write` from `Console->P()` on. -/
def writeSwitch (buffer : List Byte) (size : ℕ) (id : ℤ) : Kcode c Unit :=
  match id with
  -- `ConsoleInput`
  | 0 => do
    lift (writeRegister 2 (-1))
    writeLeave 0
  -- `ConsoleOutput`
  | 1 => do
    lift do
      let text ← orFault (cString buffer)
      modify fun k => { k with
        output := k.output ++ [.text text]
        numConsoleCharsWritten := k.numConsoleCharsWritten + text.length }
    writeLeave size
  -- `ConsoleError`
  | 2 => do
    lift do
      let r4 ← readRegister 4
      modify fun k => { k with output := k.output ++ [.number r4.toInt] }
    writeLeave 1
  | _ => writeFile w buffer size id

/-- `Nachos_Write`. -/
def nachosWrite : Kcode c Unit := do
  let (buffer, size, id) ← writeEnter
  writeSwitch w buffer size id

/-- `Nachos_Create`. -/
def nachosCreate : Kcode c Unit := do
  let r4 ← lift (readRegister 4)
  let fileName ← readString 256 r4
  lift do
    let createResult := w.unixCreat (← call) (nameOf fileName)
    let _ := w.unixClose (← call) createResult
    returnFromSystemCall

/-- `Nachos_Fork`. -/
def nachosFork : Kcode c Unit := do
  let newT ← lift (modifyGet fun k => (k.numThreads, { k with
    numThreads := k.numThreads + 1
    mySems := k.mySems.addSem
    mytable := k.mytable.addThread
    vm := copyAddrSpace k.space k.vm }))
  fork newT (ret ())
  yield (ret ())
  lift returnFromSystemCall

/-- `Nachos_Exec` with a slot for the new thread. -/
def execSlot (newT : ℕ) (name : String) (fileToExec : Fin ExecTableSize)
    (execFilesMap : BitMap ExecTableSize) : Kcode c Unit := do
  lift (modify fun k => { k with
    execFilesMap := execFilesMap
    execFiles := update k.execFiles fileToExec (some ⟨newT, name, none⟩) })
  fork newT (ret ())
  lift do
    writeRegister 2 (.ofNat 32 fileToExec)
    returnFromSystemCall

/-- `Nachos_Exec` after the name has been read; the exit for a full table is a `return`. -/
def execFile (name : String) : Kcode c Unit := do
  let newT ← lift (modifyGet fun k => (k.numThreads, { k with numThreads := k.numThreads + 1 }))
  let k ← lift get
  match k.execFilesMap.find with
  | (none, _) => lift (writeRegister 2 (-1))
  | (some fileToExec, execFilesMap) => execSlot newT name fileToExec execFilesMap

/-- `Nachos_Exec`. -/
def nachosExec : Kcode c Unit := do
  let r4 ← lift (readRegister 4)
  let name ← readString 256 r4
  execFile (nameOf name)

/-- `Nachos_Join` for a slot in use. -/
def joinSlot (id : Fin ExecTableSize) : Kcode c Unit := do
  let joinSem ← lift do
    let joinSem ← newSemaphore 0
    match (← get).execFiles id with
    | none => throw (.fault .wildAccess)
    | some e => modify fun k => { k with
        execFiles := update k.execFiles id (some { e with s := some joinSem }) }
    return joinSem
  semP joinSem (ret ())
  lift do
    match (← get).execFiles id with
    | none => throw (.fault .wildAccess)
    | some _ => modify fun k => { k with
        execFiles := update k.execFiles id none
        execFilesMap := k.execFilesMap.clearBit id }
    writeRegister 2 0

/-- The slot of an identifier. -/
def slotOf (id : ℤ) (h : 0 ≤ id ∧ id.toNat < ExecTableSize) : Fin ExecTableSize := ⟨id.toNat, h.2⟩

/-- `Nachos_Join`. -/
def nachosJoin : Kcode c Unit := do
  let id := (← lift (readRegister 4)).toInt
  if h : 0 ≤ id ∧ id.toNat < ExecTableSize then
    if (← lift get).execFilesMap.isSet id.toNat then joinSlot (slotOf id h)
    else lift (writeRegister 2 (-1))
    lift returnFromSystemCall
  else stop (.fault .bitMapRange)

/-- `Nachos_Exit`. -/
def nachosExit : Kcode c Unit := do
  lift do
    (List.finRange ExecTableSize).forM exitTurn
    writeRegister 2 (← readRegister 4)
  stop .finished

/-- `Nachos_SemWait` and `Nachos_SemSignal`. -/
def onUserSem (operate : ℕ → Kcode c Unit) : Kcode c Unit := do
  let sem ← lift do
    let semId := (← readRegister 4).toInt
    let k ← get
    orFault (k.mySems.getNachosPointer semId)
  match sem with
  | some sem =>
    operate sem
    lift (writeRegister 2 0)
  | none => lift (writeRegister 2 (-1))

/-- `Nachos_SemDestroy`. -/
def nachosSemDestroy : Kcode c Unit := do
  let sem ← lift do
    let semId := (← readRegister 4).toInt
    let k ← get
    let (sem, mySems) ← orFault (k.mySems.unRegisterSem semId)
    modify fun k => { k with mySems := mySems }
    return sem
  match sem with
  | some sem =>
    semDestroy sem
    lift (writeRegister 2 0)
  | none => lift (writeRegister 2 (-1))

end Handlers

end Kcode

/-- The code of a system call. -/
def SysCall.code (w : World c) : SysCall → Kcode c Unit
  | Halt => .stop .halted
  | Exit => Kcode.nachosExit
  | Exec => Kcode.nachosExec
  | Join => Kcode.nachosJoin
  | Create => Kcode.nachosCreate w
  | Open => Kcode.nachosOpen w
  | Read => Kcode.nachosRead w
  | Write => Kcode.nachosWrite w
  | Close => .lift (nachosClose w)
  | Fork => Kcode.nachosFork
  | Yield => do
    .yield (.ret ())
    .lift returnFromSystemCall
  | SemCreate => .lift do
    nachosSemCreate
    returnFromSystemCall
  | SemDestroy => do
    Kcode.nachosSemDestroy
    .lift returnFromSystemCall
  | SemSignal => do
    Kcode.onUserSem Kcode.semV
    .lift returnFromSystemCall
  | SemWait => do
    Kcode.onUserSem fun sem => .semP sem (.ret ())
    .lift returnFromSystemCall

namespace Kcode

variable (w : World c) (fuel : ℕ)

theorem exec_nachosOpen : (nachosOpen w).exec w fuel = Nachos.nachosOpen w fuel := by
  simp only [nachosOpen, exec_bind, exec_lift, exec_readString]
  rfl

theorem exec_readConsole (r4 : BitVec 32) (size : ℕ) :
    (readConsole w r4 size).exec w fuel = Nachos.readConsole w fuel r4 size := by
  simp only [readConsole, exec_bind, exec_lift, exec_writeBytes, bind_assoc, pure_bind]
  rfl

theorem exec_readFile (r4 : BitVec 32) (size : ℕ) (fileId : ℤ) :
    (readFile w r4 size fileId).exec w fuel = Nachos.readFile w fuel r4 size fileId := by
  simp only [readFile, exec_bind, exec_lift]
  refine bind_congr fun k => ?_
  split_ifs
  · simp only [exec_bind, exec_lift]
    refine bind_congr fun n => ?_
    cases w.unixRead n (k.mytable.getUnixHandle fileId) size with
    | some bytes => simp only [exec_bind, exec_lift, exec_writeBytes]
    | none => exact exec_lift w fuel _
  · exact exec_lift w fuel _

theorem exec_nachosRead : (nachosRead w).exec w fuel = Nachos.nachosRead w fuel := by
  unfold nachosRead Nachos.nachosRead
  simp only [exec_bind, exec_lift, bind_assoc]
  refine bind_congr fun r4 => bind_congr fun r5 => bind_congr fun size => bind_congr fun r6 => ?_
  generalize r6.toInt = fileId
  split
  · simp only [exec_bind, exec_lift, exec_readConsole]
  · simp only [exec_lift]
  · simp only [exec_lift]
  · simp only [exec_bind, exec_lift, exec_readFile]

theorem exec_writeEnter : (writeEnter : Kcode c _).exec w fuel = Nachos.writeEnter w fuel := by
  simp only [writeEnter, exec_bind, exec_lift, exec_readBytes, exec_semP, exec_pure, bind_assoc]
  rfl

theorem exec_writeLeave (size : ℤ) :
    (writeLeave size : Kcode c _).exec w fuel = Nachos.writeLeave w size := by
  simp only [writeLeave, exec_bind, exec_lift, exec_semV]
  rfl

theorem exec_writeFile (buffer : List Byte) (size : ℕ) (id : ℤ) :
    (writeFile w buffer size id).exec w fuel = Nachos.writeFile w buffer size id := by
  simp only [writeFile, exec_bind, exec_lift]
  refine bind_congr fun k => ?_
  split_ifs
  · simp only [exec_bind, exec_lift, exec_writeLeave, bind_assoc]
  · exact exec_lift w fuel _

theorem exec_nachosWrite : (nachosWrite w).exec w fuel = Nachos.nachosWrite w fuel := by
  unfold nachosWrite Nachos.nachosWrite
  simp only [exec_bind, exec_writeEnter]
  refine bind_congr fun ⟨buffer, size, id⟩ => ?_
  dsimp only
  unfold writeSwitch Nachos.writeSwitch
  split
  · simp only [exec_bind, exec_lift, exec_writeLeave]
  · simp only [exec_bind, exec_lift, exec_writeLeave, bind_assoc]
  · simp only [exec_bind, exec_lift, exec_writeLeave, bind_assoc]
  · simp only [exec_writeFile]

theorem exec_nachosCreate : (nachosCreate w).exec w fuel = Nachos.nachosCreate w fuel := by
  simp only [nachosCreate, exec_bind, exec_lift, exec_readString]
  rfl

theorem exec_nachosFork : (nachosFork : Kcode c _).exec w fuel = Nachos.nachosFork w := by
  simp only [nachosFork, exec_bind, exec_lift, exec_fork, exec_yield]
  rfl

theorem exec_nachosExec : (nachosExec : Kcode c _).exec w fuel = Nachos.nachosExec w fuel := by
  simp only [nachosExec, execFile, exec_bind, exec_lift, exec_readString]
  refine bind_congr fun r4 => bind_congr fun name => bind_congr fun newT => bind_congr fun k => ?_
  rcases k.execFilesMap.find with ⟨_ | fileToExec, execFilesMap⟩
  · exact exec_lift w fuel _
  · simp only [execSlot, exec_bind, exec_lift, exec_fork]
    rfl

theorem exec_joinSlot (id : Fin ExecTableSize) :
    (joinSlot id : Kcode c _).exec w fuel = Nachos.joinSlot w fuel id := by
  unfold joinSlot Nachos.joinSlot
  simp only [exec_bind, exec_lift, exec_semP, bind_assoc]
  refine bind_congr fun joinSem => bind_congr fun k => ?_
  cases k.execFiles id with
  | none => rfl
  | some e => exact bind_assoc _ _ _

theorem exec_nachosJoin : (nachosJoin : Kcode c _).exec w fuel = Nachos.nachosJoin w fuel := by
  unfold nachosJoin Nachos.nachosJoin
  simp only [exec_bind, exec_lift]
  refine bind_congr fun r4 => ?_
  split_ifs
  · simp only [exec_bind, exec_lift]
    refine bind_congr fun k => ?_
    split_ifs
    · simp only [exec_bind, exec_lift, exec_joinSlot, slotOf]
    · simp only [exec_bind, exec_lift]
  · rfl

theorem exec_nachosExit : (nachosExit : Kcode c _).exec w fuel = Nachos.nachosExit := by
  simp only [nachosExit, exec_bind, exec_lift, exec_stop, bind_assoc]
  rfl

theorem exec_onUserSem {operate : ℕ → Kcode c Unit} {operate' : ℕ → Sys c Unit}
    (h : ∀ sem, (operate sem).exec w fuel = operate' sem) :
    (onUserSem operate).exec w fuel = Nachos.onUserSem operate' := by
  unfold onUserSem Nachos.onUserSem
  simp only [exec_bind, exec_lift, bind_assoc]
  refine bind_congr fun r4 => bind_congr fun k => bind_congr fun sem => ?_
  cases sem with
  | some sem => simp only [exec_bind, exec_lift, h]
  | none => exact exec_lift w fuel _

theorem exec_nachosSemDestroy :
    (nachosSemDestroy : Kcode c _).exec w fuel = Nachos.nachosSemDestroy w := by
  unfold nachosSemDestroy Nachos.nachosSemDestroy
  simp only [exec_bind, exec_lift, bind_assoc]
  refine bind_congr fun r4 => bind_congr fun k => bind_congr fun p => ?_
  obtain ⟨sem, mySems⟩ := p
  simp only [pure_bind]
  refine bind_congr fun _ => ?_
  cases sem with
  | some sem => simp only [exec_bind, exec_lift, exec_semDestroy]
  | none => exact exec_lift w fuel _

/-- **The code of a system call is its handler.** -/
theorem exec_code (sc : SysCall) : (sc.code w).exec w fuel = sc.handler w fuel := by
  cases sc with
  | Halt => rfl
  | Exit => exact exec_nachosExit w fuel
  | Exec => exact exec_nachosExec w fuel
  | Join => exact exec_nachosJoin w fuel
  | Create => exact exec_nachosCreate w fuel
  | Open => exact exec_nachosOpen w fuel
  | Read => exact exec_nachosRead w fuel
  | Write => exact exec_nachosWrite w fuel
  | Close => exact exec_lift w fuel (nachosClose w)
  | Fork => exact exec_nachosFork w fuel
  | Yield => simp only [SysCall.code, SysCall.handler, exec_bind, exec_yield, exec_lift]
  | SemCreate => exact exec_lift w fuel (nachosSemCreate >>= fun _ => returnFromSystemCall)
  | SemDestroy =>
    simp only [SysCall.code, SysCall.handler, exec_bind, exec_nachosSemDestroy, exec_lift]
  | SemSignal =>
    simp only [SysCall.code, SysCall.handler, exec_bind, exec_lift, nachosSemSignal,
      exec_onUserSem w fuel (exec_semV w fuel)]
  | SemWait =>
    simp only [SysCall.code, SysCall.handler, exec_bind, exec_lift, nachosSemWait,
      exec_onUserSem w fuel (exec_semP w fuel)]

end Kcode

/-! ### The mode -/

/-- The machine's mode and the current thread are the same. -/
def SameMode (s s' : SysState c) : Prop :=
  s'.status = s.status ∧ s'.currentThread = s.currentThread
  deriving Decidable

theorem SameMode.refl (s : SysState c) : SameMode s s := ⟨rfl, rfl⟩

theorem SameMode.trans (s₁ s₂ s₃ : SysState c) (h₁ : SameMode s₁ s₂) (h₂ : SameMode s₂ s₃) :
    SameMode s₁ s₃ := ⟨h₂.1.trans h₁.1, h₂.2.trans h₁.2⟩

/-- Code that leaves them alone. -/
def KeepsMode {α : Type} (m : Sys c α) : Prop := Effect SameMode m

namespace KeepsMode

variable {α β : Type}

theorem bind {m : Sys c α} {f : α → Sys c β} (hm : KeepsMode m)
    (hf : ∀ a, KeepsMode (f a)) : KeepsMode (m >>= f) := Effect.bind SameMode.trans hm hf

theorem pure (a : α) : KeepsMode (pure a : Sys c α) := Effect.pure SameMode.refl a

theorem get : KeepsMode (get : Sys c (SysState c)) := Effect.get SameMode.refl

theorem throw (e : Stop) : KeepsMode (throw e : Sys c α) := Effect.throw e

theorem modify {g : SysState c → SysState c} (hg : ∀ s, SameMode s (g s)) :
    KeepsMode (modify g : Sys c PUnit) := Effect.modify hg

theorem modifyGet {g : SysState c → α × SysState c} (hg : ∀ s, SameMode s (g s).2) :
    KeepsMode (modifyGet g : Sys c α) := by
  intro s a s' h
  have hs : g s = (a, s') := Except.ok.inj h
  have hsame := hg s
  rwa [hs] at hsame

theorem orFault (r : Except Fault α) : KeepsMode (orFault r : Sys c α) := by
  cases r with
  | error e => exact throw _
  | ok a => exact pure a

theorem readRegister (num : Fin NumTotalRegs) : KeepsMode (readRegister num : Sys c _) :=
  bind get fun _ => pure _

theorem writeRegister (num : Fin NumTotalRegs) (value : BitVec 32) :
    KeepsMode (writeRegister num value : Sys c Unit) := modify fun _ => ⟨rfl, rfl⟩

theorem call : KeepsMode (call : Sys c ℕ) := modifyGet fun _ => ⟨rfl, rfl⟩

theorem newSemaphore (initialValue : BitVec 32) :
    KeepsMode (newSemaphore initialValue : Sys c ℕ) := modifyGet fun _ => ⟨rfl, rfl⟩

theorem returnFromSystemCall : KeepsMode (returnFromSystemCall : Sys c Unit) :=
  bind (readRegister _) fun _ => bind (readRegister _) fun _ => bind (writeRegister _ _) fun _ =>
    bind (writeRegister _ _) fun _ => writeRegister _ _

theorem getchars (w : World c) (n : ℕ) : KeepsMode (getchars w n) := by
  induction n with
  | zero => exact pure _
  | succ n ih => exact bind call fun _ => bind ih fun _ => pure _

theorem nachosClose (w : World c) : KeepsMode (nachosClose w) :=
  bind (readRegister 4) fun _ => bind get fun _ => bind (modify fun _ => ⟨rfl, rfl⟩) fun _ =>
    bind call fun _ => returnFromSystemCall

theorem nachosSemCreate : KeepsMode (nachosSemCreate : Sys c Unit) :=
  bind (readRegister 4) fun _ => bind (newSemaphore _) fun _ =>
    bind (modifyGet fun _ => ⟨rfl, rfl⟩) fun _ => writeRegister _ _

theorem exitTurn (ind : Fin ExecTableSize) : KeepsMode (exitTurn ind : Sys c Unit) := by
  unfold Nachos.exitTurn
  refine bind get fun k => ?_
  split_ifs
  · split
    · exact throw _
    · split_ifs
      · split
        · exact modify fun _ => ⟨rfl, rfl⟩
        · exact modify fun _ => ⟨rfl, rfl⟩
      · exact pure _
  · exact pure _

theorem forM {f : α → Sys c PUnit} (hf : ∀ a, KeepsMode (f a)) (l : List α) :
    KeepsMode (l.forM f) := by
  induction l with
  | nil => exact pure _
  | cons a l ih => exact bind (hf a) fun _ => ih

end KeepsMode

namespace Kcode

variable {α β : Type}

/-- The code between memory accesses and waiting leaves the mode and the current thread alone. -/
def Quiet : Kcode c α → Prop
  | ret _ => True
  | stop _ => True
  | act f k => (∀ s, SameMode s (f s)) ∧ ∀ s, (k s).Quiet
  | readMem _ k => ∀ value, (k value).Quiet
  | writeMem _ _ k => k.Quiet
  | semP _ k => k.Quiet
  | disabled f k => (∀ s, SameMode s (f s)) ∧ k.Quiet
  | fork _ k => k.Quiet
  | yield k => k.Quiet

theorem quiet_bind {x : Kcode c α} {f : α → Kcode c β} (hx : x.Quiet) (hf : ∀ a, (f a).Quiet) :
    (x >>= f).Quiet := by
  show (andThen f x).Quiet
  induction x with
  | ret a => exact hf a
  | stop e => trivial
  | act g k ih => exact ⟨hx.1, fun s => ih s (hx.2 s)⟩
  | readMem addr k ih => exact fun value => ih value (hx value)
  | writeMem addr value k ih | semP sem k ih | fork newT k ih | yield k ih => exact ih hx
  | disabled g k ih => exact ⟨hx.1, ih hx.2⟩

theorem quiet_lift {m : Sys c α} (h : KeepsMode m) : (lift m : Kcode c α).Quiet := by
  refine ⟨fun s => ?_, fun s => ?_⟩
  · show SameMode s (match m s with
      | .ok (_, s') => s'
      | .error _ => s)
    cases hs : m s with
    | ok p => exact h s p.1 p.2 hs
    | error e => exact SameMode.refl s
  · show (match m s with
      | .ok (a, _) => ret a
      | .error e => stop e : Kcode c α).Quiet
    cases m s with
    | ok p => trivial
    | error e => trivial

theorem quiet_readString (room : ℕ) (r4 : BitVec 32) : (readString room r4 : Kcode c _).Quiet := by
  induction room generalizing r4 with
  | zero => trivial
  | succ room ih =>
    refine quiet_bind (fun value => trivial) fun value => ?_
    split_ifs
    · trivial
    · exact quiet_bind (ih _) fun _ => trivial

theorem quiet_readBytes (n : ℕ) (r4 : BitVec 32) : (readBytes n r4 : Kcode c _).Quiet := by
  induction n generalizing r4 with
  | zero => trivial
  | succ n ih =>
    exact quiet_bind (fun value => trivial) fun value => quiet_bind (ih _) fun _ => trivial

theorem quiet_writeBytes (r4 : BitVec 32) (bytes : List Byte) :
    (writeBytes r4 bytes : Kcode c _).Quiet := by
  induction bytes generalizing r4 with
  | nil => trivial
  | cons b bytes ih => exact quiet_bind (x := sysWriteMem r4 _) trivial fun _ => ih _

theorem quiet_writeRegister (num : Fin NumTotalRegs) (value : BitVec 32) :
    (lift (writeRegister num value) : Kcode c Unit).Quiet := quiet_lift (.writeRegister num value)

theorem quiet_return : (lift returnFromSystemCall : Kcode c Unit).Quiet :=
  quiet_lift .returnFromSystemCall

section Handlers

variable (w : World c)

theorem quiet_nachosOpen : (nachosOpen w).Quiet := by
  refine quiet_bind (quiet_lift (.readRegister 4)) fun r4 => quiet_bind (quiet_readString _ _)
    fun fileName => quiet_lift (.bind .call fun n => ?_)
  dsimp only
  split_ifs
  · refine .bind (.modifyGet fun _ => ⟨rfl, rfl⟩) fun id => ?_
    split_ifs
    · exact .bind (.writeRegister _ _) fun _ => .returnFromSystemCall
    · exact .returnFromSystemCall
  · exact .returnFromSystemCall

theorem quiet_readConsole (r4 : BitVec 32) (size : ℕ) : (readConsole w r4 size).Quiet :=
  quiet_bind (quiet_lift (.bind (.getchars w size) fun _ => .bind (.orFault _) fun _ =>
    .bind (.modify fun _ => ⟨rfl, rfl⟩) fun _ => .pure _)) fun _ =>
      quiet_bind (quiet_writeBytes _ _) fun _ => quiet_writeRegister _ _

theorem quiet_readFile (r4 : BitVec 32) (size : ℕ) (fileId : ℤ) :
    (readFile w r4 size fileId).Quiet := by
  refine quiet_bind (quiet_lift .get) fun k => ?_
  split_ifs
  · refine quiet_bind (quiet_lift .call) fun n => ?_
    split
    · exact quiet_bind (quiet_writeBytes _ _) fun _ => quiet_writeRegister _ _
    · exact quiet_writeRegister _ _
  · exact quiet_writeRegister _ _

theorem quiet_nachosRead : (nachosRead w).Quiet := by
  refine quiet_bind (quiet_lift (.readRegister 4)) fun r4 =>
    quiet_bind (quiet_lift (.bind (.readRegister 5) fun _ => .orFault _)) fun size =>
      quiet_bind (quiet_lift (.readRegister 6)) fun r6 => ?_
  dsimp only
  split
  · exact quiet_bind (quiet_readConsole w r4 size) fun _ => quiet_return
  · exact quiet_return
  · exact quiet_return
  · exact quiet_bind (quiet_readFile w r4 size _) fun _ => quiet_return

theorem quiet_writeEnter : (writeEnter : Kcode c _).Quiet :=
  quiet_bind (quiet_lift (.readRegister 4)) fun _ =>
    quiet_bind (quiet_lift (.bind (.readRegister 5) fun _ => .orFault _)) fun _ =>
      quiet_bind (quiet_readBytes _ _) fun _ => quiet_bind (quiet_lift (.readRegister 6)) fun _ =>
        quiet_bind (x := semP Console (ret ())) trivial fun _ => trivial

theorem quiet_semV (sem : ℕ) : (semV sem : Kcode c Unit).Quiet :=
  ⟨fun _ => ⟨rfl, rfl⟩, trivial⟩

theorem quiet_writeLeave (size : ℤ) : (writeLeave size : Kcode c Unit).Quiet :=
  quiet_bind (quiet_lift (.modify fun _ => ⟨rfl, rfl⟩)) fun _ =>
    quiet_bind (quiet_semV Console) fun _ => quiet_return

theorem quiet_writeSwitch (buffer : List Byte) (size : ℕ) (id : ℤ) :
    (writeSwitch w buffer size id).Quiet := by
  unfold writeSwitch
  split
  · exact quiet_bind (quiet_writeRegister _ _) fun _ => quiet_writeLeave _
  · exact quiet_bind (quiet_lift (.bind (.orFault _) fun _ => .modify fun _ => ⟨rfl, rfl⟩))
      fun _ => quiet_writeLeave _
  · exact quiet_bind (quiet_lift (.bind (.readRegister _) fun _ => .modify fun _ => ⟨rfl, rfl⟩))
      fun _ => quiet_writeLeave _
  · refine quiet_bind (quiet_lift .get) fun k => ?_
    split_ifs
    · exact quiet_bind (quiet_lift (.bind .call fun _ => .writeRegister _ _))
        fun _ => quiet_writeLeave _
    · exact quiet_writeRegister _ _

theorem quiet_nachosCreate : (nachosCreate w).Quiet :=
  quiet_bind (quiet_lift (.readRegister 4)) fun _ => quiet_bind (quiet_readString _ _) fun _ =>
    quiet_lift (.bind .call fun _ => .bind .call fun _ => .returnFromSystemCall)

theorem quiet_nachosFork : (nachosFork : Kcode c Unit).Quiet :=
  quiet_bind (quiet_lift (.modifyGet fun _ => ⟨rfl, rfl⟩)) fun newT =>
    quiet_bind (x := fork newT (ret ())) trivial fun _ =>
      quiet_bind (x := yield (ret ())) trivial fun _ => quiet_return

theorem quiet_nachosExec : (nachosExec : Kcode c Unit).Quiet := by
  refine quiet_bind (quiet_lift (.readRegister 4)) fun _ => quiet_bind (quiet_readString _ _)
    fun name => quiet_bind (quiet_lift (.modifyGet fun _ => ⟨rfl, rfl⟩)) fun newT =>
      quiet_bind (quiet_lift .get) fun k => ?_
  split
  · exact quiet_writeRegister _ _
  · exact quiet_bind (quiet_lift (.modify fun _ => ⟨rfl, rfl⟩)) fun _ =>
      quiet_bind (x := fork newT (ret ())) trivial fun _ =>
        quiet_lift (.bind (.writeRegister _ _) fun _ => .returnFromSystemCall)

theorem quiet_joinSlot (id : Fin ExecTableSize) : (joinSlot id : Kcode c Unit).Quiet := by
  refine quiet_bind (quiet_lift (.bind (.newSemaphore 0) fun joinSem => .bind .get fun k => ?_))
    fun joinSem => quiet_bind (x := semP joinSem (ret ())) trivial fun _ =>
      quiet_lift (.bind .get fun k => ?_)
  · dsimp only
    split
    · exact .throw _
    · exact .bind (.modify fun _ => ⟨rfl, rfl⟩) fun _ => .pure _
  · dsimp only
    split
    · exact .throw _
    · exact .bind (.modify fun _ => ⟨rfl, rfl⟩) fun _ => .writeRegister _ _

theorem quiet_nachosJoin : (nachosJoin : Kcode c Unit).Quiet := by
  refine quiet_bind (quiet_lift (.readRegister 4)) fun r4 => ?_
  dsimp only
  split_ifs
  · refine quiet_bind (quiet_lift .get) fun k => ?_
    split_ifs
    · exact quiet_bind (quiet_joinSlot _) fun _ => quiet_return
    · exact quiet_bind (quiet_writeRegister _ _) fun _ => quiet_return
  · trivial

theorem quiet_nachosExit : (nachosExit : Kcode c Unit).Quiet :=
  quiet_bind (quiet_lift (.bind (.forM .exitTurn _) fun _ => .bind (.readRegister 4) fun _ =>
    .writeRegister _ _)) fun _ => trivial

theorem quiet_onUserSem {operate : ℕ → Kcode c Unit} (h : ∀ sem, (operate sem).Quiet) :
    (onUserSem operate).Quiet := by
  refine quiet_bind (quiet_lift (.bind (.readRegister 4) fun _ => .bind .get fun _ => .orFault _))
    fun sem => ?_
  cases sem with
  | some sem => exact quiet_bind (h sem) fun _ => quiet_writeRegister _ _
  | none => exact quiet_writeRegister _ _

theorem quiet_nachosSemDestroy : (nachosSemDestroy : Kcode c Unit).Quiet := by
  refine quiet_bind (quiet_lift (.bind (.readRegister 4) fun _ => .bind .get fun _ =>
    .bind (.orFault _) fun _ => .bind (.modify fun _ => ⟨rfl, rfl⟩) fun _ => .pure _)) fun sem => ?_
  cases sem with
  | some sem =>
    exact quiet_bind (x := semDestroy sem) ⟨fun _ => ⟨rfl, rfl⟩, trivial⟩ fun _ =>
      quiet_writeRegister _ _
  | none => exact quiet_writeRegister _ _

theorem quiet_code (sc : SysCall) : (sc.code w).Quiet := by
  cases sc with
  | Halt => trivial
  | Exit => exact quiet_nachosExit
  | Exec => exact quiet_nachosExec
  | Join => exact quiet_nachosJoin
  | Create => exact quiet_nachosCreate w
  | Open => exact quiet_nachosOpen w
  | Read => exact quiet_nachosRead w
  | Write => exact quiet_bind quiet_writeEnter fun ⟨_, _, _⟩ => quiet_writeSwitch w _ _ _
  | Close => exact quiet_lift (.nachosClose w)
  | Fork => exact quiet_nachosFork
  | Yield => exact quiet_bind (x := yield (ret ())) trivial fun _ => quiet_return
  | SemCreate =>
    exact quiet_lift (.bind .nachosSemCreate fun _ => .returnFromSystemCall)
  | SemDestroy => exact quiet_bind quiet_nachosSemDestroy fun _ => quiet_return
  | SemSignal => exact quiet_bind (quiet_onUserSem quiet_semV) fun _ => quiet_return
  | SemWait => exact quiet_bind (quiet_onUserSem fun _ => trivial) fun _ => quiet_return

end Handlers

end Kcode

end Nachos
