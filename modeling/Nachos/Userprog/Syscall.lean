import Nachos.Userprog.SysState

/-!
# The system calls

The handlers of `userprog/exception.cc` and the dispatch of `ExceptionHandler`, each with all of its
exits.

* `char buffer[n]` is a list of bytes with room for `n`: a store beyond it ends the run.
* A system call that returns has written the registers as the source does; `printf` to the console
  is kept in `output` for `Write`, and left out for messages.
-/

namespace Nachos

open Function

variable {c : Sizes}

/-! ### User memory -/

/-- The string at an address, copied into an array with `room` left: the loop ends with the
terminating 0, which needs its place too. -/
def readString (fuel : ℕ) : ℕ → BitVec 32 → Sys c (List Byte)
  | 0, _ => throw (.fault .wildAccess)
  | room + 1, r4 => do
    let value ← sysReadMem fuel r4
    if value = 0 then return []
    let rest ← readString fuel room (r4 + 1)
    return value.setWidth 8 :: rest

/-- The next `n` bytes at an address. -/
def readBytes (fuel : ℕ) : ℕ → BitVec 32 → Sys c (List Byte)
  | 0, _ => return []
  | n + 1, r4 => do
    let value ← sysReadMem fuel r4
    let rest ← readBytes fuel n (r4 + 1)
    return value.setWidth 8 :: rest

/-- Store bytes, one after the other; a `char` is signed. -/
def writeBytes (fuel : ℕ) : BitVec 32 → List Byte → Sys c Unit
  | _, [] => return
  | r4, b :: bytes => do
    sysWriteMem fuel r4 (b.signExtend 32)
    writeBytes fuel (r4 + 1) bytes

/-- A file name as a string. -/
def nameOf (bytes : List Byte) : String := .ofList (bytes.map fun b => .ofNat b.toNat)

/-- The string in an array; without a terminating 0 its end is not in the array. -/
def cString (buffer : List Byte) : Except Fault (List Byte) :=
  if 0 ∈ buffer then .ok (buffer.takeWhile (· ≠ 0)) else .error .wildAccess

/-- `char buffer[size+1]`: the number of bytes, for an argument that allows the array. -/
def bufferSize (size : BitVec 32) : Except Fault ℕ :=
  if 0 ≤ size.toInt ∧ size.toInt + 1 < 2 ^ 31 then .ok size.toNat else .error .wildAccess

/-! ### Program counter -/

/-- `returnFromSystemCall`. -/
def returnFromSystemCall : Sys c Unit := do
  let pc ← readRegister PCReg
  let npc ← readRegister NextPCReg
  writeRegister PrevPCReg pc
  writeRegister PCReg npc
  writeRegister NextPCReg (npc + 4)

section Handlers

variable (w : World c) (fuel : ℕ)

/-! ### Files -/

/-- `Nachos_Open`. -/
def nachosOpen : Sys c Unit := do
  let r4 ← readRegister 4
  let fileName ← readString fuel 128 r4
  let unixOpenFileId := w.unixOpen (← call) (nameOf fileName)
  if unixOpenFileId ≠ -1 then
    let nachosOpenFileId ← modifyGet fun k =>
      let (id, mytable) := k.mytable.Open unixOpenFileId
      (id, { k with mytable := mytable })
    if nachosOpenFileId ≠ -1 then writeRegister 2 (.ofInt 32 nachosOpenFileId)
  returnFromSystemCall

/-- `getchar`, `n` times. -/
def getchars : ℕ → Sys c (List Byte)
  | 0 => return []
  | n + 1 => do
    let t := w.getchar (← call)
    let rest ← getchars n
    return t :: rest

/-- `Nachos_Read` from the console. -/
def readConsole (r4 : BitVec 32) (size : ℕ) : Sys c Unit := do
  let chars ← getchars w size
  let bufferReader ← orFault (cString (chars ++ [0]))
  modify fun k => { k with numConsoleCharsRead := k.numConsoleCharsRead + bufferReader.length }
  writeBytes fuel r4 bufferReader
  writeRegister 2 (.ofNat 32 bufferReader.length)

/-- `Nachos_Read` from a file. -/
def readFile (r4 : BitVec 32) (size : ℕ) (fileId : ℤ) : Sys c Unit := do
  let k ← get
  if k.mytable.isOpened fileId then
    match w.unixRead (← call) (k.mytable.getUnixHandle fileId) size with
    | some bytes =>
      writeBytes fuel r4 bytes
      writeRegister 2 (.ofNat 32 bytes.length)
    | none => writeRegister 2 (-1)
  else writeRegister 2 (-1)

/-- `Nachos_Read`. -/
def nachosRead : Sys c Unit := do
  let r4 ← readRegister 4
  let size ← orFault (bufferSize (← readRegister 5))
  let fileId := (← readRegister 6).toInt
  match fileId with
  -- `ConsoleInput`
  | 0 => readConsole w fuel r4 size
  -- `ConsoleOutput`, `ConsoleError`
  | 1 | 2 => pure ()
  | _ => readFile w fuel r4 size fileId
  returnFromSystemCall

/-- `Nachos_Write` up to `Console->P()`: the buffer, the size and the file. -/
def writeEnter : Sys c (List Byte × ℕ × ℤ) := do
  let r4 ← readRegister 4
  let size ← orFault (bufferSize (← readRegister 5))
  -- the loop tests `i < size` at its end
  let bytes ← readBytes fuel (max 1 size) r4
  let id ← readRegister 6
  semP w Console fuel
  return (if size = 0 then bytes else bytes ++ [0], size, id.toInt)

/-- The end of `Nachos_Write`. -/
def writeLeave (size : ℤ) : Sys c Unit := do
  modify fun k => { k with numConsoleCharsWritten := k.numConsoleCharsWritten + size }
  semV w Console
  returnFromSystemCall

/-- `Nachos_Write` to a file; the exit for a file that is not open is a `return`. -/
def writeFile (buffer : List Byte) (size : ℕ) (id : ℤ) : Sys c Unit := do
  let k ← get
  if k.mytable.isOpened id then
    let charCounter := w.unixWrite (← call) (k.mytable.getUnixHandle id) (buffer.take size)
    writeRegister 2 (.ofInt 32 charCounter)
    writeLeave w size
  else writeRegister 2 (-1)

/-- `Nachos_Write` from `Console->P()` on. -/
def writeSwitch (buffer : List Byte) (size : ℕ) (id : ℤ) : Sys c Unit :=
  match id with
  -- `ConsoleInput`
  | 0 => do
    writeRegister 2 (-1)
    writeLeave w 0
  -- `ConsoleOutput`
  | 1 => do
    let text ← orFault (cString buffer)
    modify fun k => { k with
      output := k.output ++ [.text text]
      numConsoleCharsWritten := k.numConsoleCharsWritten + text.length }
    writeLeave w size
  -- `ConsoleError`
  | 2 => do
    let r4 ← readRegister 4
    modify fun k => { k with output := k.output ++ [.number r4.toInt] }
    writeLeave w 1
  | _ => writeFile w buffer size id

/-- `Nachos_Write`. -/
def nachosWrite : Sys c Unit := do
  let (buffer, size, id) ← writeEnter w fuel
  writeSwitch w buffer size id

/-- `Nachos_Create`. -/
def nachosCreate : Sys c Unit := do
  let r4 ← readRegister 4
  let fileName ← readString fuel 256 r4
  let createResult := w.unixCreat (← call) (nameOf fileName)
  let _ := w.unixClose (← call) createResult
  returnFromSystemCall

/-- `Nachos_Close`. -/
def nachosClose : Sys c Unit := do
  let id := (← readRegister 4).toInt
  let k ← get
  let unixOpenFileId := k.mytable.getUnixHandle id
  modify fun k => { k with mytable := (k.mytable.Close id).2 }
  let _ := w.unixClose (← call) unixOpenFileId
  returnFromSystemCall

/-! ### Threads -/

/-- `Nachos_Fork`: a thread that shares the tables, and a copy of the space. -/
def nachosFork : Sys c Unit := do
  modify fun k => { k with
    numThreads := k.numThreads + 1
    mySems := k.mySems.addSem
    mytable := k.mytable.addThread
    vm := copyAddrSpace k.space k.vm }
  -- `newT->Fork` enables interrupts at its end
  switchOut w
  -- `currentThread->Yield()`
  switchOut w
  returnFromSystemCall

/-- `Nachos_Exec` with a slot for the new thread. -/
def execSlot (newT : ℕ) (name : String) (fileToExec : Fin ExecTableSize)
    (execFilesMap : BitMap ExecTableSize) : Sys c Unit := do
  modify fun k => { k with
    execFilesMap := execFilesMap
    execFiles := update k.execFiles fileToExec (some ⟨newT, name, none⟩) }
  -- `newT->Fork`
  switchOut w
  writeRegister 2 (.ofNat 32 fileToExec)
  returnFromSystemCall

/-- `Nachos_Exec` after the name has been read; the exit for a full table is a `return`. -/
def execFile (name : String) : Sys c Unit := do
  let newT ← modifyGet fun k => (k.numThreads, { k with numThreads := k.numThreads + 1 })
  let k ← get
  match k.execFilesMap.find with
  | (none, _) => writeRegister 2 (-1)
  | (some fileToExec, execFilesMap) => execSlot w newT name fileToExec execFilesMap

/-- `Nachos_Exec`. -/
def nachosExec : Sys c Unit := do
  let r4 ← readRegister 4
  let name ← readString fuel 256 r4
  execFile w (nameOf name)

/-- `Nachos_Join` for a slot in use. -/
def joinSlot (id : Fin ExecTableSize) : Sys c Unit := do
  let joinSem ← newSemaphore 0
  match (← get).execFiles id with
  | none => throw (.fault .wildAccess)
  | some e => modify fun k => { k with
      execFiles := update k.execFiles id (some { e with s := some joinSem }) }
  semP w joinSem fuel
  match (← get).execFiles id with
  | none => throw (.fault .wildAccess)
  | some _ => modify fun k => { k with
      execFiles := update k.execFiles id none
      execFilesMap := k.execFilesMap.clearBit id }
  writeRegister 2 0

/-- `Nachos_Join`; `Test` requires a number of the table. -/
def nachosJoin : Sys c Unit := do
  let id := (← readRegister 4).toInt
  if h : 0 ≤ id ∧ id.toNat < ExecTableSize then
    if (← get).execFilesMap.isSet id.toNat then joinSlot w fuel ⟨id.toNat, h.2⟩
    else writeRegister 2 (-1)
    returnFromSystemCall
  else throw (.fault .bitMapRange)

/-- One turn of the loop of `Nachos_Exit`; interrupts are disabled. -/
def exitTurn (ind : Fin ExecTableSize) : Sys c Unit := do
  let k ← get
  if k.execFilesMap.isSet ind then
    match k.execFiles ind with
    | none => throw (.fault .wildAccess)
    | some e =>
      if k.currentThread = e.threadId then
        match e.s with
        | some sem => semSignal sem
        | none => modify fun k => { k with
            execFiles := update k.execFiles ind none
            execFilesMap := k.execFilesMap.clearBit ind }

/-- `Nachos_Exit`: `Run` of another thread and `Finish` do not return. -/
def nachosExit : Sys c Unit := do
  (List.finRange ExecTableSize).forM exitTurn
  writeRegister 2 (← readRegister 4)
  throw .finished

/-! ### Semaphores -/

/-- `Nachos_SemCreate`. -/
def nachosSemCreate : Sys c Unit := do
  let initValue ← readRegister 4
  let sem ← newSemaphore initValue
  let nachosSemIdentfier ← modifyGet fun k =>
    let (id, mySems) := k.mySems.registerSem sem
    (id, { k with mySems := mySems })
  writeRegister 2 (.ofInt 32 nachosSemIdentfier)

/-- `Nachos_SemWait` and `Nachos_SemSignal`: `operate` on the semaphore with the number in `r4`. -/
def onUserSem (operate : ℕ → Sys c Unit) : Sys c Unit := do
  let semId := (← readRegister 4).toInt
  let k ← get
  match ← orFault (k.mySems.getNachosPointer semId) with
  | some sem =>
    operate sem
    writeRegister 2 0
  | none => writeRegister 2 (-1)

/-- `Nachos_SemWait`. -/
def nachosSemWait : Sys c Unit := onUserSem fun sem => semP w sem fuel

/-- `Nachos_SemSignal`. -/
def nachosSemSignal : Sys c Unit := onUserSem (semV w)

/-- `Nachos_SemDestroy`. -/
def nachosSemDestroy : Sys c Unit := do
  let semId := (← readRegister 4).toInt
  let k ← get
  let (sem, mySems) ← orFault (k.mySems.unRegisterSem semId)
  modify fun k => { k with mySems := mySems }
  match sem with
  | some sem =>
    semDestroy w sem
    writeRegister 2 0
  | none => writeRegister 2 (-1)

/-! ### Dispatch -/

/-- The system calls of `syscall.h`, in the order of their codes. -/
inductive SysCall
  | Halt | Exit | Exec | Join | Create | Open | Read | Write | Close | Fork | Yield
  | SemCreate | SemDestroy | SemSignal | SemWait
  deriving DecidableEq, Repr

/-- The system call with a code. -/
def SysCall.ofCode (type : BitVec 32) : Option SysCall :=
  [Halt, Exit, Exec, Join, Create, Open, Read, Write, Close, Fork, Yield, SemCreate, SemDestroy,
    SemSignal, SemWait][type.toNat]?

/-- The branch of a system call. -/
def SysCall.handler : SysCall → Sys c Unit
  | Halt => throw .halted
  | Exit => nachosExit
  | Exec => nachosExec w fuel
  | Join => nachosJoin w fuel
  | Create => nachosCreate w fuel
  | Open => nachosOpen w fuel
  | Read => nachosRead w fuel
  | Write => nachosWrite w fuel
  | Close => nachosClose w
  | Fork => nachosFork w
  | Yield => do
    switchOut w
    returnFromSystemCall
  | SemCreate => do
    nachosSemCreate
    returnFromSystemCall
  | SemDestroy => do
    nachosSemDestroy w
    returnFromSystemCall
  | SemSignal => do
    nachosSemSignal w
    returnFromSystemCall
  | SemWait => do
    nachosSemWait w fuel
    returnFromSystemCall

/-- `ExceptionHandler`; the exceptions of memory are those of `exceptionHandler`. -/
def sysExceptionHandler (which : ExceptionType) : Sys c Unit := do
  let type ← readRegister 2
  match which with
  | .syscallException =>
    match SysCall.ofCode type with
    | some sc => sc.handler w fuel
    | none => throw (.unexpectedSyscall type)
  | which =>
    let k ← get
    let vm ← orFault (exceptionHandler which k.vm)
    modify fun k => { k with vm := vm }

end Handlers

end Nachos
