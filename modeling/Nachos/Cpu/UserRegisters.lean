import Nachos.Lib.Transition
import Nachos.Userprog.Effects
import Nachos.Cpu.Exceptions

/-!
# The registers of many threads

One register file for all user programs: `Scheduler::Run` saves it for the thread that gives up the
CPU and restores it for the one that gets it, if they have an address space at that time.

* A step is an instruction, or a piece of kernel code that does one thing to the registers.  Kernel
  code may change memory and translation in any way, and lose the CPU between any two pieces.
* `Nachos_Exec` makes a thread without an address space; it gets one while it runs.  The thread that
  `Nachos_Fork` makes has one from the start.
* A thread that runs for the first time starts in `ThreadRoot`, and nothing is restored.
* `handler_steps`: the handlers of the system calls are made of these pieces.
-/

namespace Nachos

open Transition Function

variable {c : Sizes}

/-! ### Threads -/

/-- The function that a thread was made for; `StartProcess` does what `NachosExecThread` does. -/
inductive ThreadBody
  | exec
  | fork (dir : BitVec 32)
  deriving DecidableEq, Repr

/-- What a thread is doing. -/
inductive Activity
  | unborn
  -- on the ready list for the first time
  | created (body : ThreadBody)
  -- in the function it was made for, before and after `InitRegisters`
  | starting (body : ThreadBody)
  | initialized (body : ThreadBody)
  -- about to fetch an instruction
  | user
  -- in a handler, or at the end of an instruction
  | kernel
  | finished
  deriving DecidableEq, Repr

/-- Kernel code, in which a thread can lose the CPU and get it back. -/
def Activity.suspended : Activity → Bool
  | .starting _ | .initialized _ | .kernel => true
  | _ => false

/-- The thread can be given the CPU. -/
def Activity.canRun : Activity → Bool
  | .created _ => true
  | p => p.suspended

/-- The processor and what the kernel keeps for each thread. -/
structure Cpu (c : Sizes) where
  machine : Machine c
  currentThread : ℕ
  numThreads : ℕ
  -- the number of pages of the address space
  space : ℕ → Option ℕ
  userRegisters : ℕ → Registers
  activity : ℕ → Activity

abbrev StackReg : Fin NumTotalRegs := 29

/-- `AddrSpace::InitRegisters`. -/
def initRegisters (numPages : ℕ) : Registers :=
  let r : Registers := fun _ => 0
  let r := update r PCReg 0
  let r := update r NextPCReg 4
  update r StackReg (.ofNat 32 (numPages * PageSize) - 16)

/-- The registers that system calls write. -/
def resultRegisters : List (Fin NumTotalRegs) := [2, PCReg, NextPCReg, PrevPCReg]

/-- What can happen. -/
inductive CpuEvent (c : Sizes)
  -- `OneInstruction`
  | instruction
  -- `WriteRegister` in a system call
  | write (num : Fin NumTotalRegs) (value : BitVec 32)
  -- a page fault in a system call
  | fault (badVAddr : BitVec 32)
  -- an interrupt that is due in `CheckIfDue`
  | interrupt
  -- anything that kernel code does to memory and translation
  | memory (mainMemory : ℕ → Byte) (translation : Translation c)
  -- back to the loop of `Machine::Run`
  | resume
  | exec
  | fork
  -- `currentThread->space = space`
  | acquire (numPages : ℕ)
  | initRegisters
  -- `machine->Run()`
  | run
  -- `Scheduler::Run`
  | switch (next : ℕ)
  -- `Scheduler::Run` in `Thread::Finish`
  | finish (next : ℕ)

namespace Cpu

/-- What the current thread is doing. -/
@[simp] def here (s : Cpu c) : Activity := s.activity s.currentThread

/-- The current thread goes on to something else. -/
@[simp] def goto (activity : Activity) (s : Cpu c) : Cpu c :=
  { s with activity := update s.activity s.currentThread activity }

def setMachine (machine : Machine c) (s : Cpu c) : Cpu c := { s with machine := machine }

/-- `new Thread` with an address space or without, and `Thread::Fork`. -/
@[simp] def create (body : ThreadBody) (space : Option ℕ) (s : Cpu c) : Cpu c :=
  { s with
    numThreads := s.numThreads + 1
    space := update s.space s.numThreads space
    activity := update s.activity s.numThreads (.created body) }

/-- `Thread::SaveUserState`, if the thread has an address space. -/
def saveUserState (s : Cpu c) : Cpu c :=
  if (s.space s.currentThread).isSome then
    { s with
      userRegisters := update s.userRegisters s.currentThread s.machine.registers }
  else s

/-- `Thread::RestoreUserState`, if the thread has an address space. -/
def restoreUserState (s : Cpu c) : Cpu c :=
  if (s.space s.currentThread).isSome then
    s.setMachine { s.machine with registers := s.userRegisters s.currentThread }
  else s

/-- The thread goes on where it gave up the CPU, or starts in `ThreadRoot`. -/
def enter (s : Cpu c) : Cpu c :=
  match s.here with
  | .created body => s.goto (.starting body)
  | _ => s.restoreUserState

/-- `Scheduler::Run`. -/
def switch (next : ℕ) (s : Cpu c) : Cpu c := { s.saveUserState with currentThread := next }.enter

/-- The registers after `machine->WriteRegister` in `NachosForkThread`. -/
def forkRegisters (dir : BitVec 32) (m : Machine c) : Machine c :=
  ((m.setReg R31 4).setReg PCReg dir).setReg NextPCReg (dir + 4)

/-- The state after a machine operation of kernel code that can fail. -/
def attempt (r : Except (Trap c) (Machine c)) (s : Cpu c) : Option (Cpu c) :=
  match r with
  | .ok m => some (s.setMachine m)
  | .error _ => none

/-- What happens in an event, if it can happen. -/
def step (s : Cpu c) : CpuEvent c → Option (Cpu c)
  | .instruction =>
    if s.here = .user then
      match s.machine.oneInstruction with
      | .ok m => some ((s.setMachine m).goto .kernel)
      -- the handler is entered
      | .error (.raised _ m) => some ((s.setMachine m).goto .kernel)
      | .error (.crash _) => none
    else none
  | .write num value =>
    if s.here = .kernel ∧ num ∈ resultRegisters then
      some (s.setMachine (s.machine.setReg num value))
    else none
  | .fault badVAddr =>
    if s.here = .kernel then
      s.attempt ((s.machine.setReg BadVAddrReg badVAddr).delayedLoad 0 0)
    else none
  | .interrupt => if s.here.suspended then s.attempt (s.machine.delayedLoad 0 0) else none
  | .memory mainMemory translation =>
    if s.here.suspended then
      some (s.setMachine ⟨s.machine.registers, mainMemory, translation⟩)
    else none
  | .resume => if s.here = .kernel then some (s.goto .user) else none
  | .exec => if s.here = .kernel then some (s.create .exec none) else none
  | .fork =>
    if s.here = .kernel then
      some (s.create (.fork (s.machine.registers 4)) (s.space s.currentThread))
    else none
  | .acquire numPages =>
    if s.here = .starting .exec then
      some { s with space := update s.space s.currentThread (some numPages) }
    else none
  | .initRegisters =>
    match s.here, s.space s.currentThread with
    | .starting body, some numPages =>
      some ((s.setMachine { s.machine with registers := Nachos.initRegisters numPages }).goto
        (.initialized body))
    | _, _ => none
  | .run =>
    match s.here with
    | .initialized .exec => some (s.goto .user)
    | .initialized (.fork dir) => some ((s.setMachine (forkRegisters dir s.machine)).goto .user)
    | _ => none
  | .switch next =>
    if s.here.suspended ∧ (s.activity next).canRun then some (s.switch next) else none
  | .finish next =>
    if s.here.suspended ∧ (s.activity next).canRun ∧ next ≠ s.currentThread then
      some ((s.goto .finished).switch next)
    else none

end Cpu

/-- The main thread is in `StartProcess`. -/
structure CpuInit (s : Cpu c) : Prop where
  registers : s.machine.registers = fun _ => 0
  currentThread : s.currentThread = 0
  numThreads : s.numThreads = 1
  space : ∀ t, s.space t = none
  activity : s.activity = update (fun _ => .unborn) 0 (.starting .exec)

/-- One step. -/
def CpuStep (s : Cpu c) (e : CpuEvent c) (s' : Cpu c) : Prop := s.step e = some s'

/-- `s'` is the first state from `s` on in which thread `t` has the CPU. -/
inductive Resumes (t : ℕ) : Cpu c → Cpu c → Prop
  | here {s : Cpu c} : s.currentThread = t → Resumes t s s
  | away {s s₁ s' : Cpu c} (e : CpuEvent c) : s.currentThread ≠ t → CpuStep s e s₁ →
      Resumes t s₁ s' → Resumes t s s'

/-! ### Registers that keep their invariant -/

namespace Registers.Valid

variable {r : Registers}

theorem update (h : r.Valid) {num : Fin NumTotalRegs} (h0 : num ≠ 0) (hl : num ≠ LoadReg)
    (value : BitVec 32) : Registers.Valid (update r num value) := by
  refine ⟨?_, ?_⟩
  · rw [update_of_ne h0.symm]
    exact h.zero
  · rw [update_of_ne hl.symm]
    exact h.loadReg

theorem delayedLoad {m m' : Machine c} (h : m.delayedLoad 0 0 = .ok m') : m'.registers.Valid := by
  obtain ⟨hlt, rfl⟩ := Machine.delayedLoad_ok h
  refine ⟨Machine.setReg_self .., ?_⟩
  rw [Machine.setReg_of_ne (by decide), Machine.setReg_of_ne (by decide), Machine.setReg_self]
  decide

theorem zeros : Registers.Valid fun _ => 0 := ⟨rfl, by decide⟩

theorem initRegisters (numPages : ℕ) : (Nachos.initRegisters numPages).Valid :=
  ((zeros.update (by decide) (by decide) _).update (by decide) (by decide) _).update (by decide)
    (by decide) _

theorem forkRegisters {m : Machine c} (h : m.registers.Valid) (dir : BitVec 32) :
    (Cpu.forkRegisters dir m).registers.Valid :=
  ((h.update (by decide) (by decide) _).update (by decide) (by decide) _).update (by decide)
    (by decide) _

theorem completed {m m' : Machine c} (h : m.oneInstruction = .ok m') : m'.registers.Valid := by
  have hends := oneInstruction_ends m
  rwa [h] at hends

theorem raised {m m' : Machine c} {which : ExceptionType}
    (h : m.oneInstruction = .error (.raised which m')) : m'.registers.Valid := by
  have hends := oneInstruction_ends m
  rw [h] at hends
  obtain ⟨-, tr, badVAddr, hload⟩ := hends
  exact delayedLoad hload

end Registers.Valid

/-! ### What a step does -/

/-- The thread goes on itself. -/
def Activity.running : Activity → Bool
  | .user => true
  | p => p.suspended

namespace Cpu

/-- The current thread keeps the CPU: only the machine and what belongs to the thread change. -/
@[simp] def goOn (m : Machine c) (activity : Activity) (space : Option ℕ) (s : Cpu c) : Cpu c :=
  { s with
    machine := m
    activity := update s.activity s.currentThread activity
    space := update s.space s.currentThread space }

/-- The three kinds of steps. -/
inductive Steps (s : Cpu c) : Cpu c → Prop
  | keeps (m : Machine c) (activity : Activity) (space : Option ℕ) : activity.running →
      (s.machine.registers.Valid → m.registers.Valid) → Steps s (s.goOn m activity space)
  | creates (body : ThreadBody) (space : Option ℕ) : s.here.running → Steps s (s.create body space)
  | switches (next : ℕ) : s.here.suspended → (s.activity next).canRun → Steps s (s.switch next)
  | finishes (next : ℕ) : (s.activity next).canRun → next ≠ s.currentThread →
      Steps s ((s.goto .finished).switch next)

variable {s s' : Cpu c} {t next : ℕ}

theorem Steps.of_machine {m : Machine c} (hr : s.here.running)
    (hv : s.machine.registers.Valid → m.registers.Valid) : Steps s (s.setMachine m) := by
  have h := Steps.keeps m s.here (s.space s.currentThread) hr hv
  unfold goOn here at h
  rwa [update_eq_self, update_eq_self] at h

theorem Steps.of_goto {m : Machine c} {activity : Activity} (hr : activity.running)
    (hv : s.machine.registers.Valid → m.registers.Valid) :
    Steps s ((s.setMachine m).goto activity) := by
  have h := Steps.keeps m activity (s.space s.currentThread) hr hv
  unfold goOn at h
  rwa [update_eq_self] at h

theorem Steps.of_attempt {r : Except (Trap c) (Machine c)} (h : s.attempt r = some s')
    (hr : s.here.running) (hv : ∀ m, r = .ok m → m.registers.Valid) : Steps s s' := by
  cases r with
  | error t => cases h
  | ok m =>
    cases h
    exact .of_machine hr fun _ => hv m rfl

theorem running_of_suspended {a : Activity} (h : a.suspended) : a.running := by
  cases a <;> first | rfl | cases h

/-- What a step does. -/
theorem step_cases {e : CpuEvent c} (h : CpuStep s e s') : Steps s s' := by
  unfold CpuStep at h
  cases e with
  | instruction =>
    simp only [step] at h
    split_ifs at h with hu
    split at h
    next m hm =>
      cases h
      exact .of_goto rfl fun _ => .completed hm
    next m hm =>
      cases h
      exact .of_goto rfl fun _ => .raised hm
    next => cases h
  | write num value =>
    simp only [step] at h
    split_ifs at h with hk
    cases h
    have hne : ∀ num ∈ resultRegisters, num ≠ 0 ∧ num ≠ LoadReg := by decide
    obtain ⟨h0, hl⟩ := hne num hk.2
    exact .of_machine (by rw [hk.1]; rfl) fun hv => hv.update h0 hl value
  | fault badVAddr =>
    simp only [step] at h
    split_ifs at h with hk
    exact .of_attempt h (by rw [hk]; rfl) fun _ => .delayedLoad
  | interrupt =>
    simp only [step] at h
    split_ifs at h with hk
    exact .of_attempt h (running_of_suspended hk) fun _ => .delayedLoad
  | memory mainMemory translation =>
    simp only [step] at h
    split_ifs at h with hk
    cases h
    exact .of_machine (running_of_suspended hk) fun hv => hv
  | resume =>
    simp only [step] at h
    split_ifs at h with hk
    cases h
    exact .of_goto rfl fun hv => hv
  | exec | fork =>
    simp only [step] at h
    split_ifs at h with hk
    cases h
    exact .creates _ _ (by rw [hk]; rfl)
  | acquire numPages =>
    simp only [step] at h
    split_ifs at h with hk
    cases h
    have hkeeps := Steps.keeps (s := s) s.machine s.here (some numPages) (by rw [hk]; rfl) id
    unfold goOn here at hkeeps
    rwa [update_eq_self] at hkeeps
  | initRegisters =>
    simp only [step] at h
    split at h
    next body numPages hb hn =>
      cases h
      exact .of_goto rfl fun _ => .initRegisters numPages
    next => cases h
  | run =>
    simp only [step] at h
    split at h
    next =>
      cases h
      exact .of_goto rfl fun hv => hv
    next dir _ =>
      cases h
      exact .of_goto rfl fun hv => hv.forkRegisters dir
    next => cases h
  | switch next =>
    simp only [step] at h
    split_ifs at h with hk
    cases h
    exact .switches next hk.1 hk.2
  | finish next =>
    simp only [step] at h
    split_ifs at h with hk
    cases h
    exact .finishes next hk.2.1 hk.2.2

/-! ### Scheduler::Run -/

@[simp] theorem saveUserState_space : s.saveUserState.space = s.space := by
  unfold saveUserState
  split_ifs <;> rfl

@[simp] theorem saveUserState_activity : s.saveUserState.activity = s.activity := by
  unfold saveUserState
  split_ifs <;> rfl

@[simp] theorem saveUserState_machine : s.saveUserState.machine = s.machine := by
  unfold saveUserState
  split_ifs <;> rfl

@[simp] theorem saveUserState_numThreads : s.saveUserState.numThreads = s.numThreads := by
  unfold saveUserState
  split_ifs <;> rfl

theorem saveUserState_self (h : (s.space s.currentThread).isSome) :
    s.saveUserState.userRegisters s.currentThread = s.machine.registers := by
  unfold saveUserState
  rw [if_pos h]
  exact update_self ..

theorem saveUserState_of_ne (h : t ≠ s.currentThread) :
    s.saveUserState.userRegisters t = s.userRegisters t := by
  unfold saveUserState
  split_ifs
  · exact update_of_ne h ..
  · rfl

/-- A thread that runs for the first time. -/
theorem switch_created {body : ThreadBody} (h : s.activity next = .created body) :
    s.switch next = { s.saveUserState with
      currentThread := next
      activity := update s.activity next (.starting body) } := by
  have hhere : ({ s.saveUserState with currentThread := next } : Cpu c).here = .created body := by
    show s.saveUserState.activity next = _
    rw [saveUserState_activity, h]
  unfold switch enter
  rw [hhere]
  unfold goto
  simp only [saveUserState_activity]

/-- A thread that was suspended. -/
theorem switch_suspended (h : (s.activity next).suspended) :
    s.switch next = { s.saveUserState with
      currentThread := next
      machine := { s.machine with
        registers := if (s.space next).isSome then s.saveUserState.userRegisters next
          else s.machine.registers } } := by
  have hhere : ({ s.saveUserState with currentThread := next } : Cpu c).here = s.activity next := by
    show s.saveUserState.activity next = _
    rw [saveUserState_activity]
  unfold switch enter
  rw [hhere]
  split
  next body hb =>
    rw [hb] at h
    cases h
  next =>
    unfold restoreUserState setMachine
    simp only [saveUserState_space, saveUserState_machine]
    split_ifs <;> rfl

theorem canRun_cases {a : Activity} (h : a.canRun) : (∃ body, a = .created body) ∨ a.suspended := by
  cases a with
  | created body => exact Or.inl ⟨body, rfl⟩
  | _ => exact Or.inr h

/-- What `Scheduler::Run` leaves alone, and who gets the CPU. -/
structure Switched (s s' : Cpu c) (next : ℕ) : Prop where
  currentThread : s'.currentThread = next
  numThreads : s'.numThreads = s.numThreads
  space : s'.space = s.space
  userRegisters : s'.userRegisters = s.saveUserState.userRegisters
  activity : ∀ t, (s.activity t).suspended ∨ t ≠ next → s'.activity t = s.activity t
  suspended : s'.here.suspended
  -- restored, or as they are
  registers : (s.activity next).suspended ∧ (s.space next).isSome ∧
      s'.machine.registers = s.saveUserState.userRegisters next ∨
    ((s.activity next).suspended → (s.space next).isSome = false) ∧
      s'.machine.registers = s.machine.registers

theorem switch_spec (h : (s.activity next).canRun) : Switched s (s.switch next) next := by
  rcases canRun_cases h with ⟨body, hb⟩ | hs
  · rw [switch_created hb]
    refine ⟨rfl, saveUserState_numThreads, saveUserState_space, rfl, fun t ht => ?_, ?_, ?_⟩
    · refine update_of_ne ?_ ..
      rintro rfl
      rcases ht with ht | ht
      · rw [hb] at ht
        cases ht
      · exact ht rfl
    · show (update s.activity next (.starting body) next).suspended
      rw [update_self]
      rfl
    · refine Or.inr ⟨fun hs => ?_, congrArg Machine.registers saveUserState_machine⟩
      rw [hb] at hs
      cases hs
  · rw [switch_suspended hs]
    refine ⟨rfl, saveUserState_numThreads, saveUserState_space, rfl, fun t _ => ?_, ?_, ?_⟩
    · exact congrFun saveUserState_activity t
    · show (s.saveUserState.activity next).suspended
      rw [saveUserState_activity]
      exact hs
    · cases hsp : (s.space next).isSome with
      | true => exact Or.inl ⟨hs, rfl, rfl⟩
      | false => exact Or.inr ⟨fun _ => rfl, rfl⟩

end Cpu

/-! ### The invariant -/

/-- What holds in all states. -/
structure CpuInv (s : Cpu c) : Prop where
  valid : s.machine.registers.Valid
  running : s.here.running
  unborn : ∀ t, s.numThreads ≤ t → s.activity t = .unborn
  saved : ∀ t, t ≠ s.currentThread → (s.activity t).suspended → (s.space t).isSome →
    (s.userRegisters t).Valid

namespace CpuInv

variable {s s' : Cpu c}

theorem init (h : CpuInit s) : CpuInv s := by
  refine ⟨?_, ?_, fun t ht => ?_, fun t _ _ hsp => ?_⟩
  · rw [h.registers]
    exact .zeros
  · show (s.activity s.currentThread).running
    rw [h.activity, h.currentThread, update_self]
    rfl
  · rw [h.numThreads] at ht
    rw [h.activity, update_of_ne (by omega)]
  · rw [h.space t] at hsp
    cases hsp

/-- A thread that has been suspended was made. -/
theorem lt_of_suspended (hI : CpuInv s) {t : ℕ} (h : (s.activity t).suspended) :
    t < s.numThreads := by
  by_contra hle
  rw [hI.unborn t (by omega)] at h
  cases h

theorem current_lt (hI : CpuInv s) : s.currentThread < s.numThreads := by
  by_contra hle
  have hrun := hI.running
  unfold Cpu.here at hrun
  rw [hI.unborn _ (by omega)] at hrun
  cases hrun

/-- After `Scheduler::Run`: the registers it has saved and those it has restored are valid. -/
theorem switch (hv : s.machine.registers.Valid)
    (hu : ∀ t, s.numThreads ≤ t → s.activity t = .unborn)
    (hs : ∀ t, t ≠ s.currentThread → (s.activity t).suspended → (s.space t).isSome →
      (s.userRegisters t).Valid) {next : ℕ} (hn : (s.activity next).canRun) :
    CpuInv (s.switch next) := by
  have h := Cpu.switch_spec hn
  have hsaved : ∀ t, (s.activity t).suspended → (s.space t).isSome →
      (s.saveUserState.userRegisters t).Valid := by
    intro t ht hsp
    by_cases hc : t = s.currentThread
    · subst hc
      rw [Cpu.saveUserState_self hsp]
      exact hv
    · rw [Cpu.saveUserState_of_ne hc]
      exact hs t hc ht hsp
  refine ⟨?_, Cpu.running_of_suspended h.suspended, fun t ht => ?_, fun t htn ht hsp => ?_⟩
  · rcases h.registers with ⟨hs, hsp, hr⟩ | ⟨-, hr⟩
    · rw [hr]
      exact hsaved next hs hsp
    · rw [hr]
      exact hv
  · rw [h.numThreads] at ht
    have htn : t ≠ next := by
      rintro rfl
      rw [hu t ht] at hn
      cases hn
    rw [h.activity t (Or.inr htn), hu t ht]
  · rw [h.currentThread] at htn
    rw [h.activity t (Or.inr htn)] at ht
    rw [h.space] at hsp
    rw [h.userRegisters]
    exact hsaved t ht hsp

theorem step {e : CpuEvent c} (hI : CpuInv s) (h : CpuStep s e s') : CpuInv s' := by
  have hcur := hI.current_lt
  cases Cpu.step_cases h with
  | keeps m activity space hrun hval =>
    refine ⟨hval hI.valid, by simpa using hrun, fun t ht => ?_, fun t htc ht hsp => ?_⟩
    · have htc : t ≠ s.currentThread := (hcur.trans_le ht).ne'
      simpa [htc] using hI.unborn t ht
    · have htc' : t ≠ s.currentThread := htc
      simp only [Cpu.goOn, update_of_ne htc'] at ht hsp
      exact hI.saved t htc ht hsp
  | creates body space hrun =>
    refine ⟨hI.valid, by simpa [hcur.ne] using hrun, fun t ht => ?_, fun t htc ht hsp => ?_⟩
    · have ht' : s.numThreads < t := ht
      simpa [ht'.ne'] using hI.unborn t ht'.le
    · have htn : t ≠ s.numThreads := by
        rintro rfl
        simp [Activity.suspended] at ht
      simp only [Cpu.create, update_of_ne htn] at ht hsp
      exact hI.saved t htc ht hsp
  | switches next hsus hn => exact .switch hI.valid hI.unborn hI.saved hn
  | finishes next hn hne =>
    refine .switch (s := s.goto .finished) hI.valid (fun t ht => ?_) (fun t htc ht hsp => ?_) ?_
    · have htc : t ≠ s.currentThread := (hcur.trans_le ht).ne'
      simpa [htc] using hI.unborn t ht
    · have htc' : t ≠ s.currentThread := htc
      simp only [Cpu.goto, update_of_ne htc'] at ht
      exact hI.saved t htc' ht hsp
    · simpa [hne] using hn

end CpuInv

theorem cpuInv_of_reach {s : Cpu c} (h : Reach CpuInit CpuStep s) : CpuInv s :=
  h.invariant (fun _ => .init) fun _ _ _ => .step

/-! ### A thread without the CPU -/

/-- Thread `t` has lost the CPU, and `r` is saved for it. -/
structure Suspended (t : ℕ) (r : Registers) (s : Cpu c) : Prop where
  away : s.currentThread ≠ t
  suspended : (s.activity t).suspended
  space : (s.space t).isSome
  userRegisters : s.userRegisters t = r

section

variable {s s' : Cpu c} {t next : ℕ} {r : Registers}

/-- `Scheduler::Run` by another thread. -/
theorem Suspended.switch (h : Suspended t r s) (hn : (s.activity next).canRun) :
    Suspended t r (s.switch next) ∨
      (s.switch next).currentThread = t ∧ (s.switch next).machine.registers = r := by
  have hsw := Cpu.switch_spec hn
  have hreg : s.saveUserState.userRegisters t = r := by
    rw [Cpu.saveUserState_of_ne h.away.symm, h.userRegisters]
  by_cases hnt : next = t
  · subst hnt
    refine Or.inr ⟨hsw.currentThread, ?_⟩
    rcases hsw.registers with ⟨-, -, hr⟩ | ⟨hno, -⟩
    · rw [hr, hreg]
    · have hsp := h.space
      rw [hno h.suspended] at hsp
      cases hsp
  · refine Or.inl ⟨?_, ?_, ?_, ?_⟩
    · rwa [hsw.currentThread]
    · rw [hsw.activity t (Or.inl h.suspended)]
      exact h.suspended
    · rw [hsw.space]
      exact h.space
    · rw [hsw.userRegisters, hreg]

/-- Whatever another thread does, it goes on to be suspended or gets its registers back. -/
theorem Suspended.step {e : CpuEvent c} (h : Suspended t r s) (hI : CpuInv s)
    (hs : CpuStep s e s') :
    Suspended t r s' ∨ s'.currentThread = t ∧ s'.machine.registers = r := by
  have hlt := hI.lt_of_suspended h.suspended
  cases Cpu.step_cases hs with
  | keeps m activity space hrun hval =>
    refine Or.inl ⟨h.away, ?_, ?_, h.userRegisters⟩
    · simpa [h.away.symm] using h.suspended
    · simpa [h.away.symm] using h.space
  | creates body space hrun =>
    refine Or.inl ⟨h.away, ?_, ?_, h.userRegisters⟩
    · simpa [hlt.ne] using h.suspended
    · simpa [hlt.ne] using h.space
  | switches next hsus hn => exact h.switch hn
  | finishes next hn hne =>
    have h' : Suspended t r (s.goto .finished) :=
      ⟨h.away, by simpa [h.away.symm] using h.suspended, h.space, h.userRegisters⟩
    exact h'.switch (by simpa [hne] using hn)

/-- The run until the thread has the CPU again. -/
theorem Suspended.resumes (h : Suspended t r s) (hI : CpuInv s) (hrun : Resumes t s s') :
    s'.machine.registers = r := by
  induction hrun with
  | here hc => exact absurd hc h.away
  | away e _ hst hrest ih =>
    rcases h.step hI hst with hsus | ⟨hcur, hreg⟩
    · exact ih hsus (hI.step hst)
    · cases hrest with
      | here => exact hreg
      | away _ hne => exact absurd hcur hne

/-- `Scheduler::Run` suspends a user thread, or comes back to it at once. -/
theorem switch_suspends (hs : s.here.suspended) (hsp : (s.space s.currentThread).isSome)
    (hn : (s.activity next).canRun) :
    Suspended s.currentThread s.machine.registers (s.switch next) ∨
      (s.switch next).currentThread = s.currentThread ∧
        (s.switch next).machine.registers = s.machine.registers := by
  have hsw := Cpu.switch_spec hn
  have hreg := Cpu.saveUserState_self hsp
  by_cases hnc : next = s.currentThread
  · subst hnc
    refine Or.inr ⟨hsw.currentThread, ?_⟩
    rcases hsw.registers with ⟨-, -, hr⟩ | ⟨-, hr⟩
    · rw [hr, hreg]
    · exact hr
  · refine Or.inl ⟨?_, ?_, ?_, ?_⟩
    · rwa [hsw.currentThread]
    · rw [hsw.activity _ (Or.inl hs)]
      exact hs
    · rwa [hsw.space]
    · rw [hsw.userRegisters, hreg]

end

/-! ### The system calls -/

/-- What a handler has done to the registers, pieces of kernel code can do. -/
def HandlerSteps (k k' : SysState c) : Prop :=
  ∀ s : Cpu c, s.here = .kernel → s.machine.registers = k.registers →
    ∃ (events : List (CpuEvent c)) (s' : Cpu c), events.foldlM Cpu.step s = some s' ∧
      s'.here = .kernel ∧ s'.machine.registers = k'.registers

theorem HandlerSteps.trans (k₁ k₂ k₃ : SysState c) (h₁ : HandlerSteps k₁ k₂)
    (h₂ : HandlerSteps k₂ k₃) : HandlerSteps k₁ k₃ := by
  intro s hk hr
  obtain ⟨events₁, s₁, hrun₁, hk₁, hr₁⟩ := h₁ s hk hr
  obtain ⟨events₂, s₂, hrun₂, hk₂, hr₂⟩ := h₂ s₁ hk₁ hr₁
  refine ⟨events₁ ++ events₂, s₂, ?_, hk₂, hr₂⟩
  rw [List.foldlM_append, hrun₁]
  exact hrun₂

theorem HandlerSteps.write {k k' : SysState c} (num : Fin NumTotalRegs) {value : BitVec 32}
    (hnum : num ∈ resultRegisters) (h : k'.registers = update k.registers num value) :
    HandlerSteps k k' := by
  intro s hk hr
  refine ⟨[.write num value], s.setMachine (s.machine.setReg num value), ?_, hk, ?_⟩
  · have hstep : s.step (.write num value) = some (s.setMachine (s.machine.setReg num value)) :=
      if_pos ⟨hk, hnum⟩
    rw [List.foldlM_cons, hstep]
    rfl
  · rw [h, ← hr]
    rfl

theorem HandlerSteps.fault (k k' : SysState c) (badVAddr : BitVec 32)
    (h : Registers.delayedLoad 0 0 (update k.registers BadVAddrReg badVAddr) =
      .ok k'.registers) : HandlerSteps k k' := by
  intro s hk hr
  refine ⟨[.fault badVAddr], s.setMachine { s.machine with registers := k'.registers }, ?_, hk, rfl⟩
  have hload : (s.machine.setReg BadVAddrReg badVAddr).delayedLoad 0 0 =
      .ok { s.machine with registers := k'.registers } := by
    unfold Machine.delayedLoad Machine.setReg
    dsimp only
    rw [hr, h]
  have hstep : s.step (.fault badVAddr) =
      some (s.setMachine { s.machine with registers := k'.registers }) := by
    refine (if_pos hk).trans ?_
    rw [hload]
    rfl
  rw [List.foldlM_cons, hstep]
  rfl

theorem returnFromSystemCall_steps :
    Fallible.Effect HandlerSteps (returnFromSystemCall : Sys c Unit) := by
  intro k u k' h
  cases h
  let r₁ : Registers := update k.registers PrevPCReg (k.registers PCReg)
  let r₂ : Registers := update r₁ PCReg (k.registers NextPCReg)
  have h₁ : HandlerSteps k { k with registers := r₁ } := .write PrevPCReg (by decide) rfl
  have h₂ : HandlerSteps { k with registers := r₁ } { k with registers := r₂ } :=
    .write PCReg (by decide) rfl
  exact .trans _ _ _ h₁ (.trans _ _ _ h₂ (.write NextPCReg (by decide) rfl))

theorem handlerSteps : CallEffect (c := c) HandlerSteps HandlerSteps where
  of_registers k k' h s hk hr := ⟨[], s, rfl, hk, hr.trans h.symm⟩
  trans := HandlerSteps.trans
  result _ _ _ h := .write 2 (by decide) h
  fault := HandlerSteps.fault
  returns := HandlerSteps.trans
  ret := returnFromSystemCall_steps

/-- The handlers of all exceptions are made of the pieces of kernel code that `step` has. -/
theorem handler_steps (w : World c) (fuel : ℕ) (which : ExceptionType) :
    Fallible.Effect HandlerSteps (sysExceptionHandler w fuel which) := by
  unfold sysExceptionHandler
  refine handlerSteps.bind (readRegister_keeps handlerSteps 2) fun type => ?_
  have hother : ∀ which : ExceptionType, Fallible.Effect HandlerSteps (do
      let k ← get
      let vm ← orFault (exceptionHandler which k.vm)
      modify fun k => { k with vm := vm } : Sys c Unit) := fun which =>
    handlerSteps.bind handlerSteps.get fun k =>
      handlerSteps.bind (orFault_keeps handlerSteps _) fun _ => handlerSteps.modify fun _ => rfl
  cases which with
  | syscallException =>
    dsimp only
    cases SysCall.ofCode type with
    | none => exact .throw _
    | some sc =>
      by_cases hexec : sc = .Exec
      · subst hexec
        exact fun k u k' h => (nachosExec_exits handlerSteps w fuel h).elim And.right And.right
      by_cases hwrite : sc = .Write
      · subst hwrite
        intro k u k' h
        obtain ⟨_, _, _, _, _, hex⟩ := nachosWrite_exits handlerSteps w fuel h
        exact hex.elim And.right And.right
      · exact handler_returns handlerSteps w fuel hexec hwrite
  | _ => exact hother _

/-! ### The result -/

/-- **R0 is 0 and the delayed load goes to a general register at all times; and a user thread that
gets the CPU back finds all its registers as they were**, whatever the other threads have done. -/
theorem registers_kept {s : Cpu c} (h : Reach CpuInit CpuStep s) :
    s.machine.registers.Valid ∧
    ∀ next s₁ s₂, (s.space s.currentThread).isSome → CpuStep s (.switch next) s₁ →
      Resumes s.currentThread s₁ s₂ → s₂.machine.registers = s.machine.registers := by
  have hI := cpuInv_of_reach h
  refine ⟨hI.valid, fun next s₁ s₂ hsp hst hrun => ?_⟩
  have hI₁ := hI.step hst
  unfold CpuStep Cpu.step at hst
  dsimp only at hst
  split_ifs at hst with hk
  cases hst
  rcases switch_suspends hk.1 hsp hk.2 with hsus | ⟨hcur, hreg⟩
  · exact hsus.resumes hI₁ hrun
  · cases hrun with
    | here => exact hreg
    | away _ hne => exact absurd hcur hne

/-- The program `sll r0, r0, 0` is about to be started. -/
def cpuStart : Cpu machineH where
  machine := wordMachine (fun _ => 0) 0
  currentThread := 0
  numThreads := 1
  space _ := none
  userRegisters _ _ := 0
  activity := update (fun _ => .unborn) 0 (.starting .exec)

theorem cpuStart_init : CpuInit cpuStart := ⟨rfl, rfl, rfl, fun _ => rfl, rfl⟩

/-- The state after some events. -/
def cpuAfter (events : List (CpuEvent machineH)) : Cpu machineH :=
  (events.foldlM Cpu.step cpuStart).getD cpuStart

/-- The main thread executes an instruction and calls `Exec`. -/
def execEvents : List (CpuEvent machineH) :=
  [.acquire 10, .initRegisters, .run, .instruction, .exec]

/-- The main thread loses the CPU in `Exec`; the new thread gets its address space, initialises the
registers and gives up the CPU. -/
theorem registers_kept_exec : ∃ s s₁ s₂ : Cpu machineH, Reach CpuInit CpuStep s ∧
    s.machine.registers StackReg = 1264 ∧ CpuStep s (.switch 1) s₁ ∧
    Resumes s.currentThread s₁ s₂ ∧ s₂.machine.registers = s.machine.registers := by
  have hreach : Reach CpuInit CpuStep (cpuAfter execEvents) :=
    Reach.foldlM (fun _ _ _ h => h) (.init cpuStart_init)
      (show execEvents.foldlM Cpu.step cpuStart = some (cpuAfter execEvents) from rfl)
  let s₁ := cpuAfter (execEvents ++ [.switch 1])
  let s₂ := cpuAfter (execEvents ++ [.switch 1, .acquire 5])
  let s₃ := cpuAfter (execEvents ++ [.switch 1, .acquire 5, .initRegisters])
  let s₄ := cpuAfter (execEvents ++ [.switch 1, .acquire 5, .initRegisters, .switch 0])
  have h₁ : CpuStep (cpuAfter execEvents) (.switch 1) s₁ := rfl
  have h₂ : CpuStep s₁ (.acquire 5) s₂ := rfl
  have h₃ : CpuStep s₂ .initRegisters s₃ := rfl
  have h₄ : CpuStep s₃ (.switch 0) s₄ := rfl
  have hresumes : Resumes 0 s₁ s₄ :=
    .away _ (by decide) h₂ (.away _ (by decide) h₃ (.away _ (by decide) h₄ (.here rfl)))
  exact ⟨_, _, _, hreach, by decide, h₁, hresumes, (registers_kept hreach).2 1 _ _ rfl h₁ hresumes⟩

end Nachos
