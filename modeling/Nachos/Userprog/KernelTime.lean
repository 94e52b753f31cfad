import Nachos.Lib.Transition
import Nachos.Machine.Interrupt
import Nachos.Userprog.KernelCode
import Nachos.Userprog.ProgramCounter

/-!
# The time of system calls

`Interrupt::OneTick` charges a tick to the kernel when the machine is in `SystemMode` and to the
user program otherwise.  This module runs the threads of a machine statement by statement, with the
machine's mode, the interrupt level and the clock, and asks to whom the ticks of system calls go.

* `Activation` is a function that a thread has entered and not left; a thread has a stack of them,
  which is empty in user code.
* `KState.step` makes one step of the machine: a statement of the kernel, the start of a program, an
  instruction of it, a system call, an interrupt handler, a context switch, or one of the idle
  machine.  Which thread runs next, when interrupts come, and what user code, interrupt handlers and
  context switches do to the rest of the state is left open.
* `KState.ModeInv` says which mode the machine is in at every place of the kernel, and which one a
  thread will find when it goes on.
* `kernel_time` is the result: as long as no page fault is raised inside a system call, the calls
  run in `SystemMode` and all their ticks are the kernel's; and the first page fault inside a call
  leaves the rest of the call in `UserMode`.
-/

namespace Nachos

open Transition Function Fallible

variable {c : Sizes}

/-- A function that has been entered and not left, with what is left of it. -/
inductive Activation (c : Sizes)
  -- `ExceptionHandler`; then `RaiseException` sets the mode
  | handler (code : Kcode c Unit)
  -- `Semaphore::P`: at the test of its loop, and in `Sleep`
  | pTest (sem : ℕ) (oldLevel : IntStatus)
  | asleep (sem : ℕ) (oldLevel : IntStatus)
  -- the thread has ended: in `Sleep`, or in `Run` at the end of `Nachos_Exit`
  | finished
  -- at `SetLevel`, the last statement of `P`, `V`, `Destroy`, `Fork` and `Yield`
  | setLevel (now : IntStatus)
  -- `Yield`, switched out; also a new thread, which goes on with `interrupt->Enable()`
  | yielded (oldLevel : IntStatus)
  -- `OneTick`: at its loop, and after `Yield`
  | tick (old : MachineStatus)
  | restore (old : MachineStatus)
  -- the function of a new thread, up to `machine->Run()`
  | forked

/-- An activation of `ExceptionHandler`. -/
def Activation.isHandler : Activation c → Bool
  | .handler _ => true
  | _ => false

/-- A thread with this stack is in `Sleep`. -/
def sleeping : List (Activation c) → Bool
  | .asleep _ _ :: _ => true
  | .finished :: _ => true
  | _ => false

/-- The machine and its threads. -/
structure KState (c : Sizes) where
  sys : SysState c
  level : IntStatus
  stats : Statistics
  stack : ℕ → List (Activation c)

/-- What can happen. -/
inductive KEvent (c : Sizes)
  -- the next statement of the kernel
  | statement
  -- in the function of a new thread: `machine->Run()`, and the return, which ends the thread
  | start (sys : SysState c)
  | ended
  -- in user code: an instruction, and a system call
  | instruction (sys : SysState c)
  | trap
  -- `Thread::Yield` in a system call; the state in which the next thread goes on, if there is one
  | yield (next : Option (SysState c))
  -- in `OneTick`: an interrupt handler, the return, and `Yield`
  | interrupt (sys : SysState c)
  | tickEnd
  | tickYield (next : Option (SysState c))
  -- in `Sleep`: `Scheduler::Run`; `Idle`, an interrupt handler in it, and its return
  | dispatch (next : SysState c)
  | idle
  | idleInterrupt (when : ℕ) (sys : SysState c)
  | idleEnd

namespace KState

/-- The stack of the current thread. -/
def current (s : KState c) : List (Activation c) := s.stack s.sys.currentThread

/-- The current thread goes on with the stack `l`. -/
def goTo (l : List (Activation c)) (s : KState c) : KState c :=
  { s with stack := update s.stack s.sys.currentThread l }

/-- `interrupt->setStatus(status)`. -/
def setStatus (status : MachineStatus) (s : KState c) : KState c :=
  { s with sys := { s.sys with status := status } }

/-- The rest of the machine changes. -/
def setSys (sys : SysState c) (s : KState c) : KState c := { s with sys := sys }

/-- `ChangeLevel`. -/
def changeLevel (now : IntStatus) (s : KState c) : KState c := { s with level := now }

/-- `Interrupt::OneTick`, up to its loop. -/
def oneTick (rest : List (Activation c)) (s : KState c) : KState c :=
  goTo (.tick s.sys.status :: rest)
    { s with level := .IntOff, stats := Interrupt.tick s.sys.status s.stats }

/-- `interrupt->SetLevel(now)`. -/
def setLevel (now : IntStatus) (rest : List (Activation c)) (s : KState c) : KState c :=
  if now = .IntOn ∧ s.level = .IntOff then (s.changeLevel now).oneTick rest
  else (s.changeLevel now).goTo rest

/-- `oldLevel = interrupt->SetLevel(IntOff)` at the beginning of a function. -/
def enter (f : IntStatus → Activation c) (rest : List (Activation c)) (s : KState c) : KState c :=
  (s.changeLevel .IntOff).goTo (f s.level :: rest)

/-- `Scheduler::Run`: another thread goes on where it was switched out, in the state `next`. -/
def runThread (next : SysState c) (s : KState c) : Option (KState c) :=
  if next.status = s.sys.status then
    match s.stack next.currentThread with
    | .yielded oldLevel :: rest => some ((s.setSys next).goTo (.setLevel oldLevel :: rest))
    | .asleep sem oldLevel :: rest => some ((s.setSys next).goTo (.pTest sem oldLevel :: rest))
    | _ => none
  else none

/-- `Thread::Yield`. -/
def yield (next : Option (SysState c)) (rest : List (Activation c)) (s : KState c) :
    Option (KState c) :=
  match next with
  | some next => (s.enter .yielded rest).runThread next
  | none => some (s.enter .setLevel rest)

/-- `Machine::RaiseException` for an access to user memory, with the exception served. -/
def faulted (addr : BitVec 32) (vm : VM c) (s : KState c) : Option (KState c) :=
  match raised addr { s.sys with vm := vm } with
  | .ok (_, sys) => some (s.setSys sys)
  | .error _ => none

/-- A statement of a system call. -/
def handlerStep (rest : List (Activation c)) (s : KState c) : Kcode c Unit → Option (KState c)
  -- the end of `RaiseException`
  | .ret _ => some ((s.setStatus .UserMode).goTo rest)
  | .stop .finished =>
    some ((s.changeLevel .IntOff).goTo (.finished :: .handler (.stop .finished) :: rest))
  | .stop _ => none
  | .act f k => some ((s.setSys (f s.sys)).goTo (.handler (k s.sys) :: rest))
  | .readMem addr k =>
    match readMem addr 1 s.sys.vm with
    | .ok (some value, vm) =>
      some ((s.setSys { s.sys with vm := vm }).goTo (.handler (k value) :: rest))
    | .ok (none, vm) => s.faulted addr vm
    | .error _ => none
  | .writeMem addr value k =>
    match writeMem addr 1 value s.sys.vm with
    | .ok (true, vm) => some ((s.setSys { s.sys with vm := vm }).goTo (.handler k :: rest))
    | .ok (false, vm) => s.faulted addr vm
    | .error _ => none
  | .semP sem k => some (s.enter (.pTest sem) (.handler k :: rest))
  | .disabled f k => some ((s.setSys (f s.sys)).enter .setLevel (.handler k :: rest))
  | .fork newT k =>
    some (enter .setLevel (.handler k :: rest)
      { s with stack := update s.stack newT [.yielded .IntOn, .forked] })
  | .yield _ => none

/-- A turn of the loop of `Semaphore::P`, or its `value--`. -/
def pStep (sem : ℕ) (oldLevel : IntStatus) (rest : List (Activation c)) (s : KState c) :
    KState c :=
  if (s.sys.semaphores sem).value = 0 then
    (s.setSys (Kcode.onSemaphore sem (fun x =>
      { x with queue := x.queue ++ [s.sys.currentThread] }) s.sys)).goTo
        (.asleep sem oldLevel :: rest)
  else
    (s.setSys (Kcode.onSemaphore sem (fun x => { x with value := x.value - 1 }) s.sys)).goTo
      (.setLevel oldLevel :: rest)

/-- A statement of the kernel. -/
def statement (s : KState c) : Option (KState c) :=
  match s.current with
  | .handler code :: rest => s.handlerStep rest code
  | .pTest sem oldLevel :: rest => some (s.pStep sem oldLevel rest)
  | .setLevel now :: rest => some (s.setLevel now rest)
  | .restore old :: rest => some ((s.setStatus old).goTo rest)
  | _ => none

/-- `RaiseException(SyscallException, 0)`, up to the code of the call. -/
def trap (w : World c) (s : KState c) : Option (KState c) :=
  match Registers.delayedLoad 0 0 (update s.sys.registers BadVAddrReg 0),
    SysCall.ofCode (s.sys.registers 2) with
  | .ok registers, some sc =>
    some ((s.setSys { s.sys with registers := registers, status := .SystemMode }).goTo
      [.handler (sc.code w)])
  | _, _ => none

/-- The current thread is in `Sleep`. -/
def asleep (s : KState c) : Bool := sleeping s.current

/-- A step of the machine. -/
def step (w : World c) (s : KState c) : KEvent c → Option (KState c)
  | .statement => s.statement
  | .start sys =>
    match s.current with
    | .forked :: rest =>
      if SameMode s.sys sys then some (((s.setSys sys).setStatus .UserMode).goTo rest) else none
    | _ => none
  | .ended =>
    match s.current with
    | .forked :: rest => some ((s.changeLevel .IntOff).goTo (.finished :: .forked :: rest))
    | _ => none
  | .instruction sys =>
    if s.current = [] ∧ SameMode s.sys sys then some ((s.setSys sys).oneTick []) else none
  | .trap => if s.current = [] then s.trap w else none
  | .yield next =>
    match s.current with
    | .handler (.yield k) :: rest => s.yield next (.handler k :: rest)
    | _ => none
  | .interrupt sys =>
    match s.current with
    | .tick _ :: _ => if SameMode s.sys sys then some (s.setSys sys) else none
    | _ => none
  | .tickEnd =>
    match s.current with
    | .tick _ :: rest => some ((s.changeLevel .IntOn).goTo rest)
    | _ => none
  | .tickYield next =>
    match s.current with
    | .tick old :: rest =>
      ((s.changeLevel .IntOn).setStatus .SystemMode).yield next (.restore old :: rest)
    | _ => none
  | .dispatch next =>
    if s.asleep ∧ s.sys.status ≠ .IdleMode then s.runThread next else none
  | .idle => if s.asleep then some (s.setStatus .IdleMode) else none
  | .idleInterrupt when sys =>
    if s.asleep ∧ s.sys.status = .IdleMode ∧ SameMode s.sys sys then
      some { s with sys := sys, stats := Interrupt.advance true when s.stats }
    else none
  | .idleEnd =>
    if s.asleep ∧ s.sys.status = .IdleMode then some (s.setStatus .SystemMode) else none

/-- The main thread is to run a program, and there is no other. -/
structure Init (s : KState c) : Prop where
  status : s.sys.status = .SystemMode
  level : s.level = .IntOn
  current : s.current = [.forked]
  others : ∀ t, t ≠ s.sys.currentThread → s.stack t = []

/-- The current thread is in a system call. -/
def inCall (s : KState c) : Bool :=
  s.current.any Activation.isHandler

/-- The next statement is an access to user memory, in a system call, that raises an exception. -/
def faults (s : KState c) : Bool :=
  match s.current with
  | .handler (.readMem addr _) :: _ => missed addr false s.sys.vm
  | .handler (.writeMem addr _ _) :: _ => missed addr true s.sys.vm
  | _ => false

/-- The machine is in `SystemMode`, or it idles while the thread sleeps; whatever the next step is,
it gives the user no tick, and if the clock ticks the tick is the kernel's. -/
structure Charged (w : World c) (s : KState c) : Prop where
  status : s.sys.status = .SystemMode ∨ (s.asleep ∧ s.sys.status = .IdleMode)
  ticks : ∀ e s', s.step w e = some s' → s'.stats.userTicks = s.stats.userTicks ∧
    (s.asleep ∨ s'.stats = s.stats ∨ s'.stats = Interrupt.tick .SystemMode s.stats)

@[simp] theorem current_goTo (l : List (Activation c)) (s : KState c) :
    (s.goTo l).current = l := update_self _ _ _

end KState

/-! ### Accesses to user memory -/

variable {addr : BitVec 32} {vm vm' : VM c}

theorem accessMem_isNone {w : Option (BitVec 32)} {r : Option (BitVec 32)}
    (h : accessMem w addr 1 vm = .ok (r, vm')) : r.isNone = missed addr w.isSome vm := by
  unfold accessMem at h
  unfold missed
  obtain ⟨⟨e | physAddr, vm₁⟩, ht, h⟩ := except_bind_eq_ok.1 h
  · obtain ⟨vm₂, -, h⟩ := except_bind_eq_ok.1 h
    cases h
    rw [ht]
    rfl
  · obtain ⟨value, -, h⟩ := except_bind_eq_ok.1 h
    cases h
    rw [ht]
    rfl

theorem readMem_isNone {r : Option (BitVec 32)} (h : readMem addr 1 vm = .ok (r, vm')) :
    r.isNone = missed addr false vm :=
  accessMem_isNone ((readMem_eq ..).symm.trans h)

theorem writeMem_eq_not_missed {value : BitVec 32} {b : Bool}
    (h : writeMem addr 1 value vm = .ok (b, vm')) : b = !missed addr true vm := by
  rw [writeMem_eq] at h
  obtain ⟨⟨r, vm₁⟩, hr, heq⟩ := map_eq_ok.1 h
  cases heq
  have hnone : r.isNone = missed addr true vm := accessMem_isNone hr
  rw [← hnone]
  cases r <;> rfl

/-! ### The mode at every place of the kernel -/

/-- The mode in which code runs. -/
def mode : List (Activation c) → MachineStatus
  | [] => .UserMode
  | .tick old :: _ => old
  | _ :: _ => .SystemMode

/-- What the rest of the stack is below an activation.  The saved modes are those of the code that
was interrupted. -/
def Activation.Over (rest : List (Activation c)) : Activation c → Prop
  | .handler code => rest = [] ∧ code.Quiet
  | .forked => rest = []
  | .tick old => old = mode rest
  | .restore old => old = mode rest
  | _ => mode rest = .SystemMode

/-- Every activation of a stack is over what it should be. -/
def Stacked : List (Activation c) → Prop
  | [] => True
  | a :: rest => a.Over rest ∧ Stacked rest

/-- In a system call the mode is `SystemMode`, however deep the stack is over it. -/
theorem Stacked.mode_eq {l : List (Activation c)} (h : Stacked l)
    (hcall : l.any Activation.isHandler = true) : mode l = .SystemMode := by
  induction l with
  | nil => cases hcall
  | cons a rest ih =>
    cases a with
    | tick old => exact h.1.trans (ih h.2 hcall)
    | _ => rfl

namespace KState

/-- **The mode** is that of the place where the current thread is, unless the machine idles; and
every thread that goes on will find the mode it was in. -/
structure ModeInv (s : KState c) : Prop where
  stacked : ∀ t, Stacked (s.stack t)
  status : s.sys.status = mode s.current ∨ (s.asleep ∧ s.sys.status = .IdleMode)

/-- What a step does to the clock. -/
inductive Ticks (s : KState c) : Statistics → Prop
  | same : Ticks s s.stats
  | oneTick : s.asleep = false → Ticks s (Interrupt.tick s.sys.status s.stats)
  | idle (when : ℕ) : s.asleep = true → Ticks s (Interrupt.advance true when s.stats)

/-- What a step does: the clock stands still, ticks once in the mode the machine is in, or advances
in `Idle`; and the modes stay right, unless an exception is raised inside a system call. -/
structure Follows (s s' : KState c) : Prop where
  ticks : Ticks s s'.stats
  modes : s.faults = false → s'.ModeInv

variable {s s₁ s' : KState c} {l rest : List (Activation c)}

/-- What holds where an awake thread is. -/
theorem ModeInv.at (h : s.ModeInv) (hcur : s.current = l) (hawake : sleeping l = false) :
    s.sys.status = mode l ∧ Stacked l := by
  subst hcur
  refine ⟨h.status.resolve_right ?_, h.stacked _⟩
  rintro ⟨hsleep, -⟩
  exact absurd hsleep (Bool.eq_false_iff.1 hawake)

theorem mode_of_sleeping (h : sleeping l = true) : mode l = .SystemMode := by
  unfold sleeping at h
  split at h
  · rfl
  · rfl
  · cases h

theorem stacked_goTo (h : ∀ t, Stacked (s.stack t)) (hl : Stacked l) (t : ℕ) :
    Stacked ((s.goTo l).stack t) := by
  show Stacked (update s.stack s.sys.currentThread l t)
  rcases eq_or_ne t s.sys.currentThread with rfl | ht
  · rwa [update_self]
  · rw [update_of_ne ht]
    exact h t

/-- The current thread goes on somewhere else, in the mode of that place. -/
theorem modeInv_goTo (h : ∀ t, Stacked (s.stack t)) (hl : Stacked l)
    (hstatus : s.sys.status = mode l) : (s.goTo l).ModeInv :=
  ⟨stacked_goTo h hl, .inl (by rw [current_goTo]; exact hstatus)⟩

theorem ticks_of_eq (h : s'.stats = s.stats) : Ticks s s'.stats := h ▸ .same

theorem follows_goTo (hstats : s₁.stats = s.stats) (h : ∀ t, Stacked (s₁.stack t))
    (hl : Stacked l) (hstatus : s₁.sys.status = mode l) : Follows s (s₁.goTo l) :=
  ⟨ticks_of_eq hstats, fun _ => modeInv_goTo h hl hstatus⟩

theorem follows_oneTick (hawake : s.asleep = false) (hstats : s₁.stats = s.stats)
    (hsys : s₁.sys.status = s.sys.status) (h : ∀ t, Stacked (s₁.stack t)) (hrest : Stacked rest)
    (hstatus : s₁.sys.status = mode rest) : Follows s (s₁.oneTick rest) := by
  refine ⟨?_, fun _ => modeInv_goTo h ⟨hstatus, hrest⟩ rfl⟩
  show Ticks s (Interrupt.tick s₁.sys.status s₁.stats)
  rw [hsys, hstats]
  exact .oneTick hawake

theorem follows_runThread {next : SysState c} (hstats : s₁.stats = s.stats)
    (h : ∀ t, Stacked (s₁.stack t)) (hstatus : s₁.sys.status = .SystemMode)
    (hrun : s₁.runThread next = some s') : Follows s s' := by
  unfold runThread at hrun
  split_ifs at hrun with hnext
  have hold := h next.currentThread
  split at hrun
  · next oldLevel rest heq =>
    cases hrun
    rw [heq] at hold
    exact follows_goTo hstats h hold (hnext.trans hstatus)
  · next sem oldLevel rest heq =>
    cases hrun
    rw [heq] at hold
    exact follows_goTo hstats h hold (hnext.trans hstatus)
  · cases hrun

theorem follows_yield {next : Option (SysState c)} (hstats : s₁.stats = s.stats)
    (h : ∀ t, Stacked (s₁.stack t)) (hrest : Stacked rest) (hmode : mode rest = .SystemMode)
    (hstatus : s₁.sys.status = .SystemMode) (hy : s₁.yield next rest = some s') :
    Follows s s' := by
  cases next with
  | none =>
    cases hy
    exact follows_goTo hstats h ⟨hmode, hrest⟩ hstatus
  | some next =>
    have hstats' : (s₁.enter .yielded rest).stats = s.stats := hstats
    exact follows_runThread hstats' (stacked_goTo h ⟨hmode, hrest⟩) hstatus hy

/-- The exception is raised and served. -/
theorem faulted_eq_some (h : s.faulted addr vm = some s') :
    s'.stats = s.stats ∧ s'.sys.status = .UserMode ∧ s'.current = s.current := by
  unfold faulted at h
  split at h
  · next sys hraised =>
    obtain ⟨registers, -, rfl⟩ := raised_eq_ok.1 hraised
    cases h
    exact ⟨rfl, rfl, rfl⟩
  · cases h

/-- A statement of a system call. -/
theorem follows_handlerStep {code : Kcode c Unit} (h : ∀ t, Stacked (s.stack t))
    (hstatus : s.sys.status = .SystemMode) (hcur : s.current = .handler code :: rest)
    (hstep : s.handlerStep rest code = some s') : Follows s s' := by
  obtain ⟨⟨rfl, hquiet⟩, -⟩ : Stacked (.handler code :: rest) := hcur ▸ h _
  cases code with
  | ret a =>
    cases hstep
    exact follows_goTo rfl h trivial rfl
  | stop e =>
    cases e with
    | finished =>
      cases hstep
      exact follows_goTo rfl h ⟨rfl, ⟨rfl, trivial⟩, trivial⟩ hstatus
    | _ => cases hstep
  | act f k =>
    cases hstep
    exact follows_goTo rfl h ⟨⟨rfl, hquiet.2 s.sys⟩, trivial⟩ ((hquiet.1 s.sys).1.trans hstatus)
  | readMem addr k =>
    simp only [handlerStep] at hstep
    split at hstep
    · next value vm hread =>
      cases hstep
      exact follows_goTo rfl h ⟨⟨rfl, hquiet value⟩, trivial⟩ hstatus
    · next vm hread =>
      refine ⟨ticks_of_eq (faulted_eq_some hstep).1, fun hok => ?_⟩
      rw [faults, hcur] at hok
      cases (readMem_isNone hread).trans hok
    · cases hstep
  | writeMem addr value k =>
    simp only [handlerStep] at hstep
    split at hstep
    · next vm hwrite =>
      cases hstep
      exact follows_goTo rfl h ⟨⟨rfl, hquiet⟩, trivial⟩ hstatus
    · next vm hwrite =>
      refine ⟨ticks_of_eq (faulted_eq_some hstep).1, fun hok => ?_⟩
      rw [faults, hcur] at hok
      cases (writeMem_eq_not_missed hwrite).trans (congrArg not hok)
    · cases hstep
  | semP sem k =>
    cases hstep
    exact follows_goTo rfl h ⟨rfl, ⟨rfl, hquiet⟩, trivial⟩ hstatus
  | disabled f k =>
    cases hstep
    exact follows_goTo rfl h ⟨rfl, ⟨rfl, hquiet.2⟩, trivial⟩ ((hquiet.1 s.sys).1.trans hstatus)
  | fork newT k =>
    cases hstep
    refine follows_goTo rfl (fun t => ?_) ⟨rfl, ⟨rfl, hquiet⟩, trivial⟩ hstatus
    show Stacked (update s.stack newT [.yielded .IntOn, .forked] t)
    rcases eq_or_ne t newT with rfl | ht
    · rw [update_self]
      exact ⟨rfl, rfl, trivial⟩
    · rw [update_of_ne ht]
      exact h t
  | yield k => cases hstep

theorem follows_statement (h : s.ModeInv) (hstep : s.statement = some s') : Follows s s' := by
  unfold statement at hstep
  split at hstep
  · next code rest heq => exact follows_handlerStep h.stacked (h.at heq rfl).1 heq hstep
  · next sem oldLevel rest heq =>
    obtain ⟨hstatus, hcur⟩ := h.at heq rfl
    cases hstep
    unfold pStep
    split_ifs
    · exact follows_goTo rfl h.stacked hcur hstatus
    · exact follows_goTo rfl h.stacked hcur hstatus
  · next now rest heq =>
    obtain ⟨hstatus, hmode, hrest⟩ := h.at heq rfl
    have hrest' := hstatus.trans hmode.symm
    cases hstep
    unfold setLevel
    split_ifs
    · exact follows_oneTick (congrArg sleeping heq) rfl rfl h.stacked hrest hrest'
    · exact follows_goTo rfl h.stacked hrest hrest'
  · next old rest heq =>
    obtain ⟨-, hmode, hrest⟩ := h.at heq rfl
    cases hstep
    exact follows_goTo rfl h.stacked hrest hmode
  · cases hstep

/-- **What a step does** to the clock and to the modes. -/
theorem ModeInv.step {w : World c} {e : KEvent c} (h : s.ModeInv)
    (hstep : s.step w e = some s') : Follows s s' := by
  cases e with
  | statement => exact follows_statement h hstep
  | start sys =>
    simp only [KState.step] at hstep
    split at hstep
    · next rest heq =>
      obtain ⟨-, rfl, -⟩ := h.at heq rfl
      split_ifs at hstep
      cases hstep
      exact follows_goTo rfl h.stacked trivial rfl
    · cases hstep
  | ended =>
    simp only [KState.step] at hstep
    split at hstep
    · next rest heq =>
      obtain ⟨hstatus, hcur⟩ := h.at heq rfl
      cases hstep
      exact follows_goTo rfl h.stacked ⟨rfl, hcur⟩ hstatus
    · cases hstep
  | instruction sys =>
    simp only [KState.step] at hstep
    split_ifs at hstep with hen
    obtain ⟨hnil, hsame⟩ := hen
    cases hstep
    exact follows_oneTick (congrArg sleeping hnil) rfl hsame.1 h.stacked trivial
      (hsame.1.trans (h.at hnil rfl).1)
  | trap =>
    simp only [KState.step] at hstep
    split_ifs at hstep with hnil
    unfold trap at hstep
    split at hstep
    · next registers sc _ _ =>
      cases hstep
      exact follows_goTo rfl h.stacked ⟨⟨rfl, Kcode.quiet_code w sc⟩, trivial⟩ rfl
    · cases hstep
  | yield next =>
    simp only [KState.step] at hstep
    split at hstep
    · next k rest heq =>
      obtain ⟨hstatus, hcur⟩ := h.at heq rfl
      have hrest : Stacked (.handler k :: rest) := hcur
      exact follows_yield rfl h.stacked hrest rfl hstatus hstep
    · cases hstep
  | interrupt sys =>
    simp only [KState.step] at hstep
    split at hstep
    · next old rest heq =>
      split_ifs at hstep with hsame
      cases hstep
      have hcurrent : (s.setSys sys).current = s.current := congrArg s.stack hsame.2
      refine ⟨.same, fun _ => ⟨h.stacked, .inl ?_⟩⟩
      rw [hcurrent, heq]
      exact hsame.1.trans (h.at heq rfl).1
    · cases hstep
  | tickEnd =>
    simp only [KState.step] at hstep
    split at hstep
    · next old rest heq =>
      obtain ⟨hstatus, hmode, hrest⟩ := h.at heq rfl
      cases hstep
      exact follows_goTo rfl h.stacked hrest (hstatus.trans hmode)
    · cases hstep
  | tickYield next =>
    simp only [KState.step] at hstep
    split at hstep
    · next old rest heq =>
      have hrest : Stacked (.restore old :: rest) := (h.at heq rfl).2
      have hstats : ((s.changeLevel .IntOn).setStatus .SystemMode).stats = s.stats := rfl
      exact follows_yield hstats h.stacked hrest rfl rfl hstep
    · cases hstep
  | dispatch next =>
    simp only [KState.step] at hstep
    split_ifs at hstep with hen
    have hstatus : s.sys.status = mode s.current :=
      h.status.resolve_right fun hidle => hen.2 hidle.2
    exact follows_runThread rfl h.stacked (hstatus.trans (mode_of_sleeping hen.1)) hstep
  | idle =>
    simp only [KState.step] at hstep
    split_ifs at hstep with hsleep
    cases hstep
    exact ⟨.same, fun _ => ⟨h.stacked, .inr ⟨hsleep, rfl⟩⟩⟩
  | idleInterrupt when sys =>
    simp only [KState.step] at hstep
    split_ifs at hstep with hen
    obtain ⟨hsleep, hidle, hsame⟩ := hen
    cases hstep
    have hcurrent : (s.setSys sys).current = s.current := congrArg s.stack hsame.2
    refine ⟨.idle when hsleep, fun _ => ⟨h.stacked, .inr ⟨?_, hsame.1.trans hidle⟩⟩⟩
    exact (congrArg sleeping hcurrent).trans hsleep
  | idleEnd =>
    simp only [KState.step] at hstep
    split_ifs at hstep with hen
    cases hstep
    exact ⟨.same, fun _ => ⟨h.stacked, .inl (mode_of_sleeping hen.1).symm⟩⟩

/-! ### The ticks -/

theorem userTicks_advance (when : ℕ) (stats : Statistics) :
    (Interrupt.advance true when stats).userTicks = stats.userTicks := by
  unfold Interrupt.advance
  split_ifs
  · rfl
  · rfl

/-- **In a system call** the machine is in `SystemMode`, and the ticks are the kernel's. -/
theorem ModeInv.charged (h : s.ModeInv) (w : World c) (hcall : s.inCall) : s.Charged w := by
  have hmode : mode s.current = .SystemMode := (h.stacked _).mode_eq hcall
  have hstatus : s.sys.status = .SystemMode ∨ (s.asleep ∧ s.sys.status = .IdleMode) :=
    h.status.imp_left fun hs => hs.trans hmode
  refine ⟨hstatus, fun e s' hstep => ?_⟩
  have hticks := (h.step hstep).ticks
  generalize s'.stats = stats at hticks ⊢
  cases hticks with
  | same => exact ⟨rfl, .inr (.inl rfl)⟩
  | oneTick hawake =>
    rw [(h.at rfl hawake).1, hmode]
    exact ⟨rfl, .inr (.inr rfl)⟩
  | idle when hsleep => exact ⟨userTicks_advance when s.stats, .inl hsleep⟩

/-! ### A page fault inside a system call -/

/-- An access that raises an exception is the only step that can be made, and the call goes on in
`UserMode`. -/
theorem step_of_faults {w : World c} {e : KEvent c} (hfaults : s.faults = true)
    (h : s.step w e = some s') : s'.sys.status = .UserMode ∧ s'.current = s.current := by
  unfold faults at hfaults
  split at hfaults
  · next addr k rest heq =>
    cases e with
    | statement =>
      simp only [KState.step, statement, heq, handlerStep] at h
      split at h
      · next value vm hread => cases (readMem_isNone hread).trans hfaults
      · exact (faulted_eq_some h).2
      · cases h
    | _ => simp [KState.step, asleep, sleeping, heq] at h
  · next addr value k rest heq =>
    cases e with
    | statement =>
      simp only [KState.step, statement, heq, handlerStep] at h
      split at h
      · next vm hwrite => cases (writeMem_eq_not_missed hwrite).trans (congrArg not hfaults)
      · exact (faulted_eq_some h).2
      · cases h
    | _ => simp [KState.step, asleep, sleeping, heq] at h
  · cases hfaults

theorem inCall_of_faults (h : s.faults = true) : s.inCall = true := by
  unfold faults at h
  unfold inCall
  split at h
  · next heq =>
    rw [heq]
    rfl
  · next heq =>
    rw [heq]
    rfl
  · cases h

theorem modeInv_init (h : s.Init) : s.ModeInv := by
  refine ⟨fun t => ?_, .inl (by rw [h.status, h.current]; rfl)⟩
  rcases eq_or_ne t s.sys.currentThread with rfl | ht
  · show Stacked s.current
    rw [h.current]
    exact ⟨rfl, trivial⟩
  · rw [h.others t ht]
    trivial

/-- A step of a run without exceptions inside system calls. -/
def StepMapped (w : World c) (s : KState c) (e : KEvent c) (s' : KState c) : Prop :=
  s.step w e = some s' ∧ s.faults = false

end KState

open KState in
/-- **Kernel time.**  In every state of a run in which no access of a system call to user memory
raises an exception, a thread in a system call runs in `SystemMode` and its ticks are the kernel's.
The next step keeps it so exactly if it is not such an exception either. -/
theorem kernel_time (w : World c) {s : KState c} (h : Reach Init (StepMapped w) s) :
    (s.inCall → s.Charged w) ∧ ∀ e s', s.step w e = some s' →
      ((s'.inCall → s'.Charged w) ↔ s.faults = false) := by
  have hinv : s.ModeInv :=
    h.invariant (fun s => modeInv_init) fun s e s' hs hstep => (hs.step hstep.1).modes hstep.2
  refine ⟨hinv.charged w, fun e s' hstep => ?_⟩
  constructor
  · intro hcharged
    by_contra hfaults
    rw [Bool.not_eq_false] at hfaults
    obtain ⟨hstatus, hcur⟩ := step_of_faults hfaults hstep
    have hcall : s'.inCall = true := by
      unfold inCall
      rw [hcur]
      exact inCall_of_faults hfaults
    rcases (hcharged hcall).status with hsys | ⟨-, hidle⟩
    · rw [hstatus] at hsys
      cases hsys
    · rw [hstatus] at hidle
      cases hidle
  · intro hok
    exact ((hinv.step hstep).modes hok).charged w

/-! ### `Write` with and without a page fault -/

/-- A machine on which a program is to start that calls `Write` for the byte at address 0. -/
def startsWrite : KState machineH where
  sys := callsWrite 1
  level := .IntOn
  stats := ⟨0, 0, 0, 0⟩
  stack t := if t = 0 then [.forked] else []

theorem startsWrite_init : startsWrite.Init :=
  ⟨rfl, rfl, rfl, fun _ ht => if_neg ht⟩

/-- After the program has read the byte itself, so that its page is in the TLB. -/
def hasRead : SysState machineH :=
  { callsWrite 1 with
    status := .UserMode
    vm := match safeReadMem 0 1 2 smallStart with
      | .ok (_, vm) => vm
      | .error _ => smallStart }

/-- The page is mapped: `Console->P()` ticks for the kernel. -/
theorem kernel_time_write : ∃ s : KState machineH,
    Reach KState.Init (KState.StepMapped quiet) s ∧
      (s.inCall ∧ s.stats.systemTicks = 10 ∧ s.stats.userTicks = 1) ∧ s.Charged quiet := by
  have hf : ∀ (s : KState machineH) e s', (if s.faults then none else s.step quiet e) = some s' →
      KState.StepMapped quiet s e s' := by
    intro s e s' h
    split_ifs at h with hfaults
    exact ⟨h, Bool.eq_false_iff.2 hfaults⟩
  obtain ⟨s, hs, hP⟩ := Reach.exists_run hf
    (P := fun s => s.inCall ∧ s.stats.systemTicks = 10 ∧ s.stats.userTicks = 1)
    (.init startsWrite_init)
    ([.start (callsWrite 1), .instruction hasRead, .tickEnd, .trap] ++ List.replicate 7 .statement)
    (by decide +kernel)
  exact ⟨s, hs, hP, (kernel_time quiet hs).1 hP.1⟩

/-- The page is not mapped: the call goes on in `UserMode`, and `Console->P()` ticks for the
user. -/
theorem write_ticks_for_user : ∃ s s' : KState machineH,
    Reach KState.Init (fun s e s' => s.step quiet e = some s') s ∧ s.inCall ∧
      s.sys.status = .UserMode ∧ s.step quiet .statement = some s' ∧ s'.inCall ∧
      s'.stats.userTicks = s.stats.userTicks + UserTick ∧
      s'.stats.systemTicks = s.stats.systemTicks := by
  obtain ⟨s, hs, hcall, hstatus, hP⟩ := Reach.exists_run (f := KState.step quiet) (fun _ _ _ h => h)
    (P := fun s => s.inCall ∧ s.sys.status = .UserMode ∧
      ((s.step quiet .statement).any fun s' => decide (s'.inCall ∧
        s'.stats.userTicks = s.stats.userTicks + UserTick ∧
        s'.stats.systemTicks = s.stats.systemTicks)) = true)
    (.init startsWrite_init)
    ([.start (callsWrite 1), .trap] ++ List.replicate 7 .statement) (by decide +kernel)
  obtain ⟨s', hstep, hP⟩ := (Option.any_eq_true _ _).1 hP
  exact ⟨s, s', hs, hcall, hstatus, hstep, of_decide_eq_true hP⟩

end Nachos
