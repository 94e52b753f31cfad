import Mathlib.Data.List.Nodup
import Mathlib.Logic.Function.Basic
import Mathlib.Tactic.Common
import Nachos.Lib.Transition
import Nachos.Machine.Basic

/-!
# Threads, interrupts and semaphores

`Semaphore::P` and `Semaphore::V` of `threads/synch.cc`, statement by statement, on the scheduler of
`threads/scheduler.cc` and the interrupt level of `machine/interrupt.cc`.

* Every thread is at a `Place` of the code.  Code outside `P` and `V` is not modelled: there a
  thread may set the interrupt level, yield, block, wake blocked threads and fork new ones.
* One thread runs, `currentThread`, or an interrupt handler on top of it.  Handlers call `V` only.
  They run, and the running thread is preempted, where `OneTick` is called: when `SetLevel`
  enables interrupts, and at user instructions; and in `Idle`, when no thread is ready.
* The fields after `place` are history: they are written, and never read.
-/

namespace Nachos

open Function

/-- `class Semaphore`; threads are numbers, and `value` is an `int`. -/
structure Semaphore where
  value : BitVec 32
  queue : List ℕ
  deriving DecidableEq, Repr

/-- Where a thread or a handler is.  In a call of `P` or `V` on the semaphore `x` it holds the local
variable `oldLevel`. -/
inductive Place
  | unborn
  | outside
  -- `P`: at the test of the loop, for the first time or `woken`; appended to the queue; in `Sleep`;
  -- past `value--`
  | pTest (x : ℕ) (oldLevel : IntStatus) (woken : Bool)
  | pSleep (x : ℕ) (oldLevel : IntStatus)
  | pAsleep (x : ℕ) (oldLevel : IntStatus)
  | pDone (x : ℕ) (oldLevel : IntStatus)
  -- `V`: at `Remove`; at `value++`; past it
  | vRemove (x : ℕ) (oldLevel : IntStatus)
  | vAdd (x : ℕ) (oldLevel : IntStatus)
  | vDone (x : ℕ) (oldLevel : IntStatus)
  -- in `OneTick`, called by the last `SetLevel` of `P` or `V` or from elsewhere; in `Yield`,
  -- switched out
  | tick (inCall : Bool)
  | yielded (oldLevel : IntStatus) (inCall : Bool)
  -- in a `Sleep` that `P` did not call
  | blocked
  deriving DecidableEq, Repr

/-- The state; `none` is the interrupt handler. -/
structure Kernel where
  level : IntStatus
  inHandler : Bool
  currentThread : ℕ
  readyList : List ℕ
  sems : ℕ → Semaphore
  place : Option ℕ → Place
  -- the threads that `V` has put on the ready list and that have not yet tested `value` again
  woken : ℕ → List ℕ
  -- the calls that have changed `value`
  completedP : ℕ → ℕ
  completedV : ℕ → ℕ
  -- the level at the last call of `P` or `V`
  found : Option ℕ → IntStatus

namespace Kernel

/-- Who executes: a handler, or else the current thread. -/
def running (s : Kernel) : Option ℕ := if s.inHandler then none else some s.currentThread

/-- Continue at `p`. -/
@[simp] def goto (a : Option ℕ) (p : Place) (s : Kernel) : Kernel :=
  { s with place := update s.place a p }

/-- Change the semaphore `x`. -/
@[simp] def setSem (x : ℕ) (sem : Semaphore) (s : Kernel) : Kernel :=
  { s with sems := update s.sems x sem }

/-- `Interrupt::SetLevel`, as the last statement of a function: enabling interrupts is a tick. -/
def setLevel (a : Option ℕ) (now : IntStatus) (inCall : Bool) (s : Kernel) : Kernel :=
  { s with
    level := now
    place := update s.place a
      (if now = .IntOn ∧ s.level = .IntOff then .tick inCall else .outside) }

/-- `Scheduler::ReadyToRun`. -/
@[simp] def readyToRun (thread : ℕ) (s : Kernel) : Kernel :=
  { s with readyList := s.readyList ++ [thread] }

/-- `Scheduler::Run`, up to the statement after the call that switched `nextThread` out: the test
of the loop in `P`, or the last `SetLevel` of `Yield`. -/
def run (nextThread : ℕ) (s : Kernel) : Kernel :=
  let s := { s with currentThread := nextThread }
  match s.place (some nextThread) with
  | .pAsleep x oldLevel => s.goto (some nextThread) (.pTest x oldLevel true)
  | .yielded oldLevel inCall => s.setLevel (some nextThread) oldLevel inCall
  | _ => s.goto (some nextThread) .outside

/-- The call of `P` or `V` up to its first `SetLevel`, which disables interrupts. -/
def enter (a : Option ℕ) (p : IntStatus → Place) (s : Kernel) : Kernel :=
  { s.goto a (p s.level) with level := .IntOff, found := update s.found a s.level }

/-- A woken thread tests `value` again. -/
def retest (t x : ℕ) (woken : Bool) (s : Kernel) : Kernel :=
  if woken then { s with woken := update s.woken x ((s.woken x).erase t) } else s

section retest

variable {t x : ℕ} {woken : Bool} {s : Kernel}

@[simp] theorem retest_sems : (s.retest t x woken).sems = s.sems := by cases woken <;> rfl

@[simp] theorem retest_place : (s.retest t x woken).place = s.place := by cases woken <;> rfl

@[simp] theorem retest_readyList : (s.retest t x woken).readyList = s.readyList := by
  cases woken <;> rfl

@[simp] theorem retest_level : (s.retest t x woken).level = s.level := by cases woken <;> rfl

@[simp] theorem retest_completedP : (s.retest t x woken).completedP = s.completedP := by
  cases woken <;> rfl

@[simp] theorem retest_completedV : (s.retest t x woken).completedV = s.completedV := by
  cases woken <;> rfl

theorem retest_woken_of_ne {y : ℕ} (hy : y ≠ x) :
    (s.retest t x woken).woken y = s.woken y := by
  cases woken with
  | false => rfl
  | true => exact update_of_ne hy ..

end retest

/-- The test of the loop in `P`, and the statement after it. -/
def test (t x : ℕ) (oldLevel : IntStatus) (woken : Bool) (s : Kernel) : Kernel :=
  let s := s.retest t x woken
  let sem := s.sems x
  if sem.value = 0 then
    (s.setSem x { sem with queue := sem.queue ++ [t] }).goto (some t) (.pSleep x oldLevel)
  else
    { (s.setSem x { sem with value := sem.value - 1 }).goto (some t) (.pDone x oldLevel) with
      completedP := update s.completedP x (s.completedP x + 1) }

/-- `queue->Remove` in `V`, and `ReadyToRun` of the thread it returns. -/
def remove (a : Option ℕ) (x : ℕ) (oldLevel : IntStatus) (s : Kernel) : Kernel :=
  match (s.sems x).queue with
  | [] => s.goto a (.vAdd x oldLevel)
  | thread :: queue =>
    { ((s.setSem x { s.sems x with queue := queue }).readyToRun thread).goto a
        (.vAdd x oldLevel) with
      woken := update s.woken x (thread :: s.woken x) }

/-- `value++` in `V`. -/
def add (a : Option ℕ) (x : ℕ) (oldLevel : IntStatus) (s : Kernel) : Kernel :=
  let sem := s.sems x
  { (s.setSem x { sem with value := sem.value + 1 }).goto a (.vDone x oldLevel) with
    completedV := update s.completedV x (s.completedV x + 1) }

/-- `Thread::Yield`: if another thread is ready, switch to it. -/
def yield (t : ℕ) (inCall : Bool) (s : Kernel) : Kernel :=
  let oldLevel := s.level
  let s := { s with level := .IntOff }
  match s.readyList with
  | [] => s.setLevel (some t) oldLevel inCall
  | nextThread :: rest =>
    run nextThread
      (({ s with readyList := rest }.readyToRun t).goto (some t) (.yielded oldLevel inCall))

theorem yield_nil {t : ℕ} {inCall : Bool} {s : Kernel} (h : s.readyList = []) :
    s.yield t inCall = { s with level := .IntOff }.setLevel (some t) s.level inCall := by
  simp only [yield, h]

theorem yield_cons {t n : ℕ} {rest : List ℕ} {inCall : Bool} {s : Kernel}
    (h : s.readyList = n :: rest) :
    s.yield t inCall = run n (({ s with level := .IntOff, readyList := rest }.readyToRun t).goto
      (some t) (.yielded s.level inCall)) := by
  simp only [yield, h]

end Kernel

/-- In `Sleep`, waiting for a thread to run. -/
@[simp] def Place.Asleep : Place → Prop
  | .pAsleep _ _ => True
  | .blocked => True
  | _ => False

/-- The steps, with what is at hand where they are taken. -/
inductive Event
  | callP (t x : ℕ)
  | test (t x : ℕ) (oldLevel : IntStatus) (woken : Bool)
  | sleep (t x : ℕ) (oldLevel : IntStatus)
  | dispatch (t nextThread : ℕ) (rest : List ℕ)
  | callV (a : Option ℕ) (x : ℕ)
  | remove (a : Option ℕ) (x : ℕ) (oldLevel : IntStatus)
  | add (a : Option ℕ) (x : ℕ) (oldLevel : IntStatus)
  | restoreP (t x : ℕ) (oldLevel : IntStatus)
  | restoreV (a : Option ℕ) (x : ℕ) (oldLevel : IntStatus)
  | tickEnd (t : ℕ) (inCall : Bool)
  | interrupt (t : ℕ)
  | handlerEnd
  | tickYield (t : ℕ) (inCall : Bool)
  | yield (t : ℕ)
  | setLevel (t : ℕ) (now : IntStatus)
  | instruction (t : ℕ)
  | block (t : ℕ)
  | wake (a : Option ℕ) (u : ℕ)
  | fork (t u : ℕ)

/-- When a step can be taken. -/
def Event.enabled (s : Kernel) : Event → Prop
  | .callP t _ => s.running = some t ∧ s.place (some t) = .outside
  | .test t x oldLevel woken => s.running = some t ∧ s.place (some t) = .pTest x oldLevel woken
  | .sleep t x oldLevel => s.running = some t ∧ s.place (some t) = .pSleep x oldLevel
  | .dispatch t nextThread rest => s.running = some t ∧ (s.place (some t)).Asleep ∧
    s.readyList = nextThread :: rest
  | .callV a _ => s.running = a ∧ s.place a = .outside
  | .remove a x oldLevel => s.running = a ∧ s.place a = .vRemove x oldLevel
  | .add a x oldLevel => s.running = a ∧ s.place a = .vAdd x oldLevel
  | .restoreP t x oldLevel => s.running = some t ∧ s.place (some t) = .pDone x oldLevel
  | .restoreV a x oldLevel => s.running = a ∧ s.place a = .vDone x oldLevel
  | .tickEnd t inCall => s.running = some t ∧ s.place (some t) = .tick inCall
  | .interrupt t => s.running = some t ∧
    ((∃ inCall, s.place (some t) = .tick inCall) ∨ (s.place (some t)).Asleep)
  | .handlerEnd => s.inHandler = true ∧ s.place none = .outside
  | .tickYield t inCall => s.running = some t ∧ s.place (some t) = .tick inCall
  | .yield t => s.running = some t ∧ s.place (some t) = .outside
  | .setLevel t _ => s.running = some t ∧ s.place (some t) = .outside
  | .instruction t => s.running = some t ∧ s.place (some t) = .outside ∧ s.level = .IntOn
  | .block t => s.running = some t ∧ s.place (some t) = .outside ∧ s.level = .IntOff
  | .wake a u => s.running = a ∧ s.place a = .outside ∧ s.place (some u) = .blocked ∧
    u ∉ s.readyList
  | .fork t u => s.running = some t ∧ s.place (some t) = .outside ∧ s.place (some u) = .unborn

/-- Take a step. -/
def Event.next (s : Kernel) : Event → Kernel
  | .callP t x => s.enter (some t) fun oldLevel => .pTest x oldLevel false
  | .test t x oldLevel woken => s.test t x oldLevel woken
  | .sleep t x oldLevel => s.goto (some t) (.pAsleep x oldLevel)
  | .dispatch _ nextThread rest => Kernel.run nextThread { s with readyList := rest }
  | .callV a x => s.enter a fun oldLevel => .vRemove x oldLevel
  | .remove a x oldLevel => s.remove a x oldLevel
  | .add a x oldLevel => s.add a x oldLevel
  | .restoreP t _ oldLevel => s.setLevel (some t) oldLevel true
  | .restoreV a _ oldLevel => s.setLevel a oldLevel true
  | .tickEnd t _ => s.goto (some t) .outside
  -- `OneTick` disables interrupts around the handlers; in `Idle` they are disabled already
  | .interrupt _ => { s with inHandler := true, level := .IntOff }
  | .handlerEnd => { s with
      inHandler := false
      level := match s.place (some s.currentThread) with
        | .tick _ => .IntOn
        | _ => .IntOff }
  | .tickYield t inCall => s.yield t inCall
  | .yield t => s.yield t false
  | .setLevel t now => s.setLevel (some t) now false
  | .instruction t => s.goto (some t) (.tick false)
  | .block t => s.goto (some t) .blocked
  | .wake _ u => s.readyToRun u
  | .fork _ u => (s.goto (some u) (.yielded .IntOn false)).readyToRun u

/-- One step of the system. -/
def KernelStep (s : Kernel) (e : Event) (s' : Kernel) : Prop := e.enabled s ∧ s' = e.next s

/-- The main thread runs, nobody else exists, and the semaphores have their initial values. -/
def KernelInit (initialValue : ℕ → BitVec 32) (s : Kernel) : Prop :=
  ∃ level, s =
    { level := level
      inHandler := false
      currentThread := 0
      readyList := []
      sems := fun x => ⟨initialValue x, []⟩
      place := fun a => if a = none ∨ a = some 0 then .outside else .unborn
      woken := fun _ => []
      completedP := fun _ => 0
      completedV := fun _ => 0
      found := fun _ => .IntOff }

/-- The states of all runs. -/
def KernelReach (initialValue : ℕ → BitVec 32) (s : Kernel) : Prop :=
  Transition.Reach (KernelInit initialValue) KernelStep s

end Nachos
