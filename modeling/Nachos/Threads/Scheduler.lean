import Nachos.Threads.Kernel
import Nachos.Lib.Update

/-!
# The life of a thread

`Thread::Fork`, `Yield`, `Sleep` and `Finish` of `threads/thread.cc`, `Scheduler::ReadyToRun`,
`FindNextToRun` and `Run` of `threads/scheduler.cc`, and `Semaphore::P`, `V` and `Destroy` of
`threads/synch.cc`, with the status of every thread and with `threadToBeDestroyed`.

* A step is a stretch of code that runs with interrupts off, from the call of one of these
  functions to its end, or to the point where the thread that `Run` has switched to leaves the
  kernel or tests `value` in `P` again.  No other thread can run in between.
* Interrupt handlers call `V` only.  They run between two steps, when interrupts are on, and in the
  loop of `Sleep` when no thread is ready.
* A thread that is switched to for the first time starts in `ThreadRoot`; all others come back
  from `SWITCH` in the middle of `Run`.
* The fields after `code` are history: they are written, and never read.
-/

namespace Nachos

open Function

/-- `enum ThreadStatus`. -/
inductive ThreadStatus
  | JUST_CREATED
  | RUNNING
  | READY
  | BLOCKED
  deriving DecidableEq, Repr

/-- Where the code of a thread is. -/
inductive Code
  | unborn
  -- `Fork` has been called, and the stack holds the frame of `StackAllocate`
  | threadRoot
  -- in none of the functions of this file
  | outside
  -- in `Yield`, switched out
  | inYield (oldLevel : IntStatus)
  -- in `P` on the semaphore `x`: in the call of `Sleep`, or back from it
  | inP (x : ℕ) (oldLevel : IntStatus)
  | finished
  deriving DecidableEq, Repr

/-- The state of the threads. -/
structure Sched where
  level : IntStatus
  currentThread : ℕ
  threadToBeDestroyed : Option ℕ
  readyList : List ℕ
  status : ℕ → ThreadStatus
  sems : ℕ → Semaphore
  code : ℕ → Code
  -- the interrupt level at every call of `Run`
  runLevels : List IntStatus
  -- what every `Finish` found in `threadToBeDestroyed`
  found : List (Option ℕ)
  -- a thread has come back from `SWITCH` since the last `Finish`
  resumed : Bool
  deleted : List ℕ
  -- how many calls of `P` a thread has returned from
  returnedP : ℕ → ℕ

namespace Sched

/-- Continue thread `t` at `p`. -/
@[simp] def goto (t : ℕ) (p : Code) (s : Sched) : Sched := { s with code := update s.code t p }

/-- `Thread::setStatus`. -/
@[simp] def setStatus (t : ℕ) (st : ThreadStatus) (s : Sched) : Sched :=
  { s with status := update s.status t st }

/-- Change the semaphore `x`. -/
@[simp] def setSem (x : ℕ) (sem : Semaphore) (s : Sched) : Sched :=
  { s with sems := update s.sems x sem }

/-- `Scheduler::ReadyToRun`. -/
@[simp] def readyToRun (thread : ℕ) (s : Sched) : Sched :=
  { s.setStatus thread .READY with readyList := s.readyList ++ [thread] }

/-- The statements of `Run` after `SWITCH`. -/
def resume (s : Sched) : Sched :=
  { s with
    threadToBeDestroyed := none
    resumed := true
    deleted := s.deleted ++ s.threadToBeDestroyed.toList }

/-- `Scheduler::Run`, and what `nextThread` does then: in `ThreadRoot` it enables interrupts and
calls its function; in `Yield` it restores the level and returns; in `P` it is back at the test. -/
def run (nextThread : ℕ) (s : Sched) : Sched :=
  let s := { s.setStatus nextThread .RUNNING with
    currentThread := nextThread
    runLevels := s.runLevels ++ [s.level] }
  match s.code nextThread with
  | .threadRoot => { s.goto nextThread .outside with level := .IntOn }
  | .inYield oldLevel => { s.resume.goto nextThread .outside with level := oldLevel }
  | _ => s.resume

/-- `Thread::Fork` of `u`. -/
def fork (u : ℕ) (s : Sched) : Sched := (s.goto u .threadRoot).readyToRun u

/-- `Thread::Yield`. -/
def yield (s : Sched) : Sched :=
  match s.readyList with
  | [] => s
  | nextThread :: rest =>
    run nextThread (({ s with level := .IntOff, readyList := rest }.goto s.currentThread
      (.inYield s.level)).readyToRun s.currentThread)

/-- `Semaphore::V`; it leaves the level as it found it. -/
def semV (x : ℕ) (s : Sched) : Sched :=
  match (s.sems x).queue with
  | [] => s.setSem x ⟨(s.sems x).value + 1, []⟩
  | thread :: queue => (s.setSem x ⟨(s.sems x).value + 1, queue⟩).readyToRun thread

/-- The loop of `Semaphore::Destroy` over the threads that wait. -/
def freeAll (s : Sched) (queue : List ℕ) : Sched := queue.foldl (fun s t => s.readyToRun t) s

/-- `Semaphore::Destroy`. -/
def destroy (x : ℕ) (s : Sched) : Sched :=
  (s.setSem x { s.sems x with queue := [] }).freeAll (s.sems x).queue

/-- Switch to the first thread of the ready list, if there is one. -/
def dispatch (s : Sched) : Option Sched :=
  match s.readyList with
  | [] => none
  | nextThread :: rest => some (run nextThread { s with readyList := rest })

/-- The semaphores on which the handlers of one `Idle` or `OneTick` call `V`. -/
def handlers (xs : List ℕ) (s : Sched) : Sched := xs.foldl (fun s x => s.semV x) s

/-- The loop of `Thread::Sleep`.  While nobody is ready `Idle` runs the handlers of the next
interrupts; when none is pending, it halts the machine. -/
def sleepLoop : List (List ℕ) → Sched → Option Sched
  | [], s => s.dispatch
  | xs :: interrupts, s =>
    if s.readyList = [] then sleepLoop interrupts (s.handlers xs) else s.dispatch

/-- `Thread::Sleep`. -/
def sleep (interrupts : List (List ℕ)) (s : Sched) : Option Sched :=
  (s.setStatus s.currentThread .BLOCKED).sleepLoop interrupts

/-- `Semaphore::P` from the test of the loop on. -/
def testP (x : ℕ) (oldLevel : IntStatus) (interrupts : List (List ℕ)) (s : Sched) : Option Sched :=
  let sem := s.sems x
  if sem.value = 0 then
    ((s.setSem x { sem with queue := sem.queue ++ [s.currentThread] }).goto s.currentThread
      (.inP x oldLevel)).sleep interrupts
  else
    some { (s.setSem x { sem with value := sem.value - 1 }).goto s.currentThread .outside with
      level := oldLevel
      returnedP := update s.returnedP s.currentThread (s.returnedP s.currentThread + 1) }

/-- `Thread::Finish`. -/
def finish (interrupts : List (List ℕ)) (s : Sched) : Option Sched :=
  { s.goto s.currentThread .finished with
    level := .IntOff
    threadToBeDestroyed := some s.currentThread
    found := s.found ++ [s.threadToBeDestroyed]
    resumed := false }.sleep interrupts

/-! ### What moving threads between lists leaves alone -/

/-- Only statuses, the ready list and the semaphores differ. -/
structure ListsOnly (s s' : Sched) : Prop where
  level : s'.level = s.level
  currentThread : s'.currentThread = s.currentThread
  threadToBeDestroyed : s'.threadToBeDestroyed = s.threadToBeDestroyed
  code : s'.code = s.code
  runLevels : s'.runLevels = s.runLevels
  found : s'.found = s.found
  resumed : s'.resumed = s.resumed
  deleted : s'.deleted = s.deleted
  returnedP : s'.returnedP = s.returnedP

theorem ListsOnly.refl (s : Sched) : ListsOnly s s := ⟨rfl, rfl, rfl, rfl, rfl, rfl, rfl, rfl, rfl⟩

theorem ListsOnly.trans {s₁ s₂ s₃ : Sched} (h : ListsOnly s₁ s₂) (h' : ListsOnly s₂ s₃) :
    ListsOnly s₁ s₃ where
  level := h'.level.trans h.level
  currentThread := h'.currentThread.trans h.currentThread
  threadToBeDestroyed := h'.threadToBeDestroyed.trans h.threadToBeDestroyed
  code := h'.code.trans h.code
  runLevels := h'.runLevels.trans h.runLevels
  found := h'.found.trans h.found
  resumed := h'.resumed.trans h.resumed
  deleted := h'.deleted.trans h.deleted
  returnedP := h'.returnedP.trans h.returnedP

theorem semV_listsOnly (x : ℕ) (s : Sched) : ListsOnly s (s.semV x) := by
  unfold semV
  split <;> exact ⟨rfl, rfl, rfl, rfl, rfl, rfl, rfl, rfl, rfl⟩

theorem handlers_listsOnly (xs : List ℕ) (s : Sched) : ListsOnly s (s.handlers xs) := by
  induction xs generalizing s with
  | nil => exact .refl s
  | cons x xs ih => exact (semV_listsOnly x s).trans (ih (s.semV x))

theorem freeAll_listsOnly (queue : List ℕ) (s : Sched) : ListsOnly s (s.freeAll queue) := by
  induction queue generalizing s with
  | nil => exact .refl s
  | cons t queue ih =>
    have h : ListsOnly s (s.readyToRun t) := ⟨rfl, rfl, rfl, rfl, rfl, rfl, rfl, rfl, rfl⟩
    exact h.trans (ih (s.readyToRun t))

theorem destroy_listsOnly (x : ℕ) (s : Sched) : ListsOnly s (s.destroy x) := by
  have h : ListsOnly s (s.setSem x { s.sems x with queue := [] }) :=
    ⟨rfl, rfl, rfl, rfl, rfl, rfl, rfl, rfl, rfl⟩
  exact h.trans (freeAll_listsOnly _ _)

/-- `Sleep` runs the handlers of some of the interrupts and switches to the first ready thread. -/
theorem sleepLoop_cases {interrupts : List (List ℕ)} {s s' : Sched}
    (h : s.sleepLoop interrupts = some s') :
    ∃ xs n rest, (∀ x ∈ xs, ∃ ys ∈ interrupts, x ∈ ys) ∧
      (s.handlers xs).readyList = n :: rest ∧
      s' = run n { s.handlers xs with readyList := rest } := by
  have hdispatch : ∀ s₀ : Sched, s₀.dispatch = some s' →
      ∃ n rest, s₀.readyList = n :: rest ∧ s' = run n { s₀ with readyList := rest } := by
    intro s₀ hd
    unfold dispatch at hd
    split at hd
    · cases hd
    · rename_i n rest hr
      exact ⟨n, rest, hr, (Option.some.inj hd).symm⟩
  induction interrupts generalizing s with
  | nil =>
    obtain ⟨n, rest, hr, hs⟩ := hdispatch s h
    exact ⟨[], n, rest, by simp, hr, hs⟩
  | cons ys interrupts ih =>
    unfold sleepLoop at h
    split_ifs at h with hr
    · obtain ⟨xs, n, rest, hxs, hr, hs⟩ := ih h
      have happend : (s.handlers ys).handlers xs = s.handlers (ys ++ xs) :=
        (List.foldl_append ..).symm
      rw [happend] at hr hs
      refine ⟨ys ++ xs, n, rest, fun x hx => ?_, hr, hs⟩
      rcases List.mem_append.1 hx with h1 | h1
      · exact ⟨ys, List.mem_cons_self, h1⟩
      · obtain ⟨zs, hzs, h2⟩ := hxs x h1
        exact ⟨zs, List.mem_cons_of_mem _ hzs, h2⟩
    · obtain ⟨n, rest, hr, hs⟩ := hdispatch s h
      exact ⟨[], n, rest, by simp, hr, hs⟩

end Sched

/-- The steps.  Where a step can end in `Idle`, `interrupts` are those that come there. -/
inductive Operation
  | fork (u : ℕ)
  | yield
  | semP (x : ℕ) (interrupts : List (List ℕ))
  | retest (x : ℕ) (oldLevel : IntStatus) (interrupts : List (List ℕ))
  | semV (x : ℕ)
  | destroy (x : ℕ)
  | finish (interrupts : List (List ℕ))
  | setLevel (now : IntStatus)
  | interrupt (xs : List ℕ)
  deriving DecidableEq, Repr

/-- When the current thread can take a step. -/
def Operation.enabled (s : Sched) : Operation → Prop
  | .fork u => s.code s.currentThread = .outside ∧ s.code u = .unborn
  | .retest x oldLevel _ => s.code s.currentThread = .inP x oldLevel
  | .interrupt _ => s.code s.currentThread = .outside ∧ s.level = .IntOn
  | _ => s.code s.currentThread = .outside

instance Operation.decidableEnabled (s : Sched) (o : Operation) : Decidable (o.enabled s) := by
  cases o <;> unfold enabled <;> infer_instance

/-- Take a step; `none` if it halts the machine. -/
def Operation.next (s : Sched) : Operation → Option Sched
  | .fork u => some (s.fork u)
  | .yield => some s.yield
  | .semP x interrupts => { s with level := .IntOff }.testP x s.level interrupts
  | .retest x oldLevel interrupts => s.testP x oldLevel interrupts
  | .semV x => some (s.semV x)
  | .destroy x => some (s.destroy x)
  | .finish interrupts => s.finish interrupts
  | .setLevel now => some { s with level := now }
  | .interrupt xs => some (s.handlers xs)

/-- One step of the threads. -/
def SchedStep (s : Sched) (o : Operation) (s' : Sched) : Prop := o.enabled s ∧ o.next s = some s'

/-- The main thread runs and nobody else exists. -/
def SchedInit (s : Sched) : Prop :=
  ∃ (level : IntStatus) (initialValue : ℕ → BitVec 32), s =
    { level := level
      currentThread := 0
      threadToBeDestroyed := none
      readyList := []
      status := fun t => if t = 0 then .RUNNING else .JUST_CREATED
      sems := fun x => ⟨initialValue x, []⟩
      code := fun t => if t = 0 then .outside else .unborn
      runLevels := []
      found := []
      resumed := true
      deleted := []
      returnedP := fun _ => 0 }

/-- The states of all runs. -/
def SchedReach (s : Sched) : Prop := Transition.Reach SchedInit SchedStep s

/-- Take a step if it can be taken. -/
def Operation.exec (s : Sched) (o : Operation) : Option Sched :=
  if o.enabled s then o.next s else none

theorem Operation.exec_step {s s' : Sched} {o : Operation} (h : o.exec s = some s') :
    SchedStep s o s' := by
  unfold Operation.exec at h
  split_ifs at h with hen
  exact ⟨hen, h⟩

/-- The main thread, and semaphores with value 0. -/
def mainThread : Sched where
  level := .IntOn
  currentThread := 0
  threadToBeDestroyed := none
  readyList := []
  status := fun t => if t = 0 then .RUNNING else .JUST_CREATED
  sems := fun _ => ⟨0, []⟩
  code := fun t => if t = 0 then .outside else .unborn
  runLevels := []
  found := []
  resumed := true
  deleted := []
  returnedP := fun _ => 0

theorem mainThread_init : SchedInit mainThread := ⟨.IntOn, fun _ => 0, rfl⟩

end Nachos
