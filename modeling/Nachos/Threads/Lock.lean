import Mathlib.Data.Int.Notation
import Nachos.Threads.Kernel
import Nachos.Lib.Token
import Nachos.Lib.Update

/-!
# Locks

`Lock::Acquire` and `Lock::Release` of `threads/synch.cc`, for any number of threads that may be
preempted between any two statements.

* With interrupts off nobody runs in between, so that one pass through the loop of `Semaphore::P`
  is one step (`Semaphore.tryP`), and so is `Semaphore::V` (`Semaphore.postV`); the runs of the
  kernel are such runs (`Nachos.Threads.Atomic`).  A thread that `P` has put on the queue takes no
  step until some `V` removes it.
* `LockStep` leaves open what the threads do elsewhere, so that the condition variables and the
  lists that use a lock can be built on top of it.
-/

namespace Nachos

open Function Transition

variable {t u : ℕ}

namespace Semaphore

/-- One pass through the loop of `P` by thread `t`: is it out, and what is left. -/
def tryP (t : ℕ) (sem : Semaphore) : Bool × Semaphore :=
  if sem.value = 0 then (false, { sem with queue := sem.queue ++ [t] })
  else (true, { sem with value := sem.value - 1 })

/-- `Semaphore::V`. -/
@[simp] def postV (sem : Semaphore) : Semaphore := ⟨sem.value + 1, sem.queue.tail⟩

theorem tryP_of_zero {sem : Semaphore} (h : sem.value = 0) :
    sem.tryP t = (false, ⟨sem.value, sem.queue ++ [t]⟩) := if_pos h

theorem tryP_of_ne {sem : Semaphore} (h : sem.value ≠ 0) :
    sem.tryP t = (true, ⟨sem.value - 1, sem.queue⟩) := if_neg h

end Semaphore

/-- Where a thread is in `Acquire` and `Release`. -/
inductive LockCode
  | outside
  -- `Acquire`: in `mutex->P()`; past it; returned
  | inP
  | gotP
  | holds
  -- `Release`: past the `ASSERT`; past `lockHolder = NULL`
  | asserted
  | cleared
  deriving DecidableEq, Repr

/-- `class Lock`, and where its threads are. -/
structure LockState where
  lockHolder : Option ℕ
  mutex : Semaphore
  code : ℕ → LockCode

/-- The statements of `Acquire` and `Release`, and the thread that executes them. -/
inductive LockEvent
  | acquire (t : ℕ)
  | semP (t : ℕ)
  | setHolder (t : ℕ)
  | release (t : ℕ)
  | clearHolder (t : ℕ)
  | semV (t : ℕ)
  deriving DecidableEq, Repr

namespace LockEvent

/-- Who executes. -/
def thread : LockEvent → ℕ
  | acquire t => t
  | semP t => t
  | setHolder t => t
  | release t => t
  | clearHolder t => t
  | semV t => t

/-- A statement of `Acquire`. -/
def ofAcquire : LockEvent → Bool
  | acquire _ => true
  | semP _ => true
  | setHolder _ => true
  | _ => false

/-- When it can be executed.  `Release` is called where `isHeldByCurrentThread` holds. -/
def enabled (s : LockState) : LockEvent → Prop
  | acquire t => s.code t = .outside
  | semP t => s.code t = .inP ∧ t ∉ s.mutex.queue
  | setHolder t => s.code t = .gotP
  | release t => (s.code t = .outside ∨ s.code t = .holds) ∧ s.lockHolder = some t
  | clearHolder t => s.code t = .asserted
  | semV t => s.code t = .cleared

instance decidableEnabled (s : LockState) (e : LockEvent) : Decidable (e.enabled s) := by
  cases e <;> unfold enabled <;> infer_instance

/-- Execute it. -/
@[simp] def next (s : LockState) : LockEvent → LockState
  | acquire t => { s with code := update s.code t .inP }
  | semP t => { s with
      mutex := (s.mutex.tryP t).2
      code := if (s.mutex.tryP t).1 then update s.code t .gotP else s.code }
  | setHolder t => { s with lockHolder := some t, code := update s.code t .holds }
  | release t => { s with code := update s.code t .asserted }
  | clearHolder t => { s with lockHolder := none, code := update s.code t .cleared }
  | semV t => { s with mutex := s.mutex.postV, code := update s.code t .outside }

end LockEvent

/-- The other threads stay where they are. -/
theorem LockEvent.next_code_of_ne {s : LockState} {e : LockEvent} (hu : u ≠ e.thread) :
    (e.next s).code u = s.code u := by
  cases e with
  | semP t =>
    simp only [LockEvent.next]
    split
    · exact update_of_ne hu ..
    · rfl
  | _ => exact update_of_ne hu ..

/-- One step of one thread. -/
def LockStep (s : LockState) (e : LockEvent) (s' : LockState) : Prop := e.enabled s ∧ s' = e.next s

/-- The lock is free and nobody is in its code. -/
def LockInit (s : LockState) : Prop := s = ⟨none, ⟨1, []⟩, fun _ => .outside⟩

/-- The states of all runs. -/
def LockReach (s : LockState) : Prop := Reach LockInit LockStep s

/-- Past `mutex->P()` in `Acquire` and not past `mutex->V()` in `Release`. -/
@[simp] def LockCode.Inside (p : LockCode) : Prop := p ≠ .outside ∧ p ≠ .inP

/-! ### The invariant -/

/-- The value is 1 and nobody is inside, or it is 0 and one thread is; the holder is that thread,
from `setHolder` to `clearHolder`. -/
structure LockInv (s : LockState) : Prop where
  exclusive : (s.mutex.value = 1 ∧ ∀ t, ¬ (s.code t).Inside) ∨
    (s.mutex.value = 0 ∧ ∃ t, (s.code t).Inside ∧ ∀ u, (s.code u).Inside → u = t)
  holder : ∀ t, s.lockHolder = some t ↔ s.code t = .holds ∨ s.code t = .asserted
  queued : ∀ t ∈ s.mutex.queue, s.code t = .inP
  queuedOnce : s.mutex.queue.Nodup

section invariant

variable {s s' : LockState}

theorem LockInv.one (h : LockInv s) : Token.One s.mutex.value fun t => (s.code t).Inside :=
  h.exclusive

theorem LockInv.unique (h : LockInv s) (ht : (s.code t).Inside) (hu : (s.code u).Inside) : t = u :=
  h.one.unique ht hu

theorem LockInv.holds_unique (h : LockInv s) (ht : s.code t = .holds) (hu : s.code u = .holds) :
    t = u :=
  h.unique (by simp [ht]) (by simp [hu])

/-- The threads on the queue are others. -/
theorem LockInv.queued_update (h : LockInv s) {p : LockCode} (ht : t ∉ s.mutex.queue) :
    ∀ u ∈ s.mutex.queue, update s.code t p u = .inP := by
  intro u hu
  have hut : u ≠ t := by
    rintro rfl
    exact ht hu
  rw [update_of_ne hut]
  exact h.queued u hu

theorem LockInv.notMem_queue (h : LockInv s) (ht : s.code t ≠ .inP) : t ∉ s.mutex.queue :=
  fun hq => ht (h.queued t hq)

/-- The holder is inside. -/
theorem LockInv.holder_inside (h : LockInv s) (ht : s.lockHolder = some t) : (s.code t).Inside := by
  rcases (h.holder t).1 ht with hc | hc <;> simp [hc]

/-- A thread goes on without crossing `mutex->P()` or `mutex->V()`. -/
theorem LockInv.move (h : LockInv s) {p : LockCode} {holder : Option ℕ} (ht : s.code t ≠ .inP)
    (hp : p.Inside ↔ (s.code t).Inside) (hself : holder = some t ↔ p = .holds ∨ p = .asserted)
    (hother : ∀ u ≠ t, holder = some u ↔ s.lockHolder = some u) :
    LockInv { s with lockHolder := holder, code := update s.code t p } := by
  refine ⟨h.one.congr fun u => ?_, fun u => ?_, h.queued_update (h.notMem_queue ht), h.queuedOnce⟩
  · by_cases hu : u = t
    · simpa [hu] using hp
    · simp [hu]
  · by_cases hu : u = t
    · simpa [hu] using hself
    · simpa [hu, hother u hu] using h.holder u

theorem LockInv.step {e : LockEvent} (h : LockInv s) (hst : LockStep s e s') : LockInv s' := by
  obtain ⟨hen, rfl⟩ := hst
  -- nobody but a thread that is inside is the holder
  have hnone : ∀ {t u}, (s.code t).Inside → u ≠ t → s.lockHolder ≠ some u :=
    fun hin hu hold => hu (h.unique (h.holder_inside hold) hin)
  cases e with
  | acquire t =>
    have ht : s.code t = .outside := hen
    exact h.move (by simp [ht]) (by simp [ht]) (by simp [h.holder, ht]) fun _ _ => Iff.rfl
  | semP t =>
    obtain ⟨ht, hq⟩ := hen
    by_cases hv : s.mutex.value = 0
    · simp only [LockEvent.next, Semaphore.tryP_of_zero hv]
      refine ⟨h.exclusive, h.holder, fun u hu => ?_, ?_⟩
      · rcases List.mem_append.1 hu with h1 | h1
        · exact h.queued u h1
        · rw [List.mem_singleton.1 h1]
          exact ht
      · refine List.nodup_append.2 ⟨h.queuedOnce, List.nodup_singleton t, ?_⟩
        rintro a ha b hb rfl
        exact hq (List.mem_singleton.1 hb ▸ ha)
    · simp only [LockEvent.next, Semaphore.tryP_of_ne hv]
      refine ⟨h.one.take hv (t := t) (by simp) fun u hut hu => ?_, fun u => ?_,
        h.queued_update hq, h.queuedOnce⟩
      · simpa only [if_true, update_of_ne hut] using hu
      · by_cases hu : u = t
        · simp [hu, h.holder, ht]
        · simpa [hu] using h.holder u
  | setHolder t =>
    have ht : s.code t = .gotP := hen
    exact h.move (by simp [ht]) (by simp [ht]) (by simp) fun u hu =>
      iff_of_false (by simpa using Ne.symm hu) (hnone (by simp [ht]) hu)
  | release t =>
    obtain ⟨-, hold⟩ := hen
    have hin := h.holder_inside hold
    exact h.move hin.2 (iff_of_true (by simp) hin) (by simp [hold]) fun _ _ => Iff.rfl
  | clearHolder t =>
    have ht : s.code t = .asserted := hen
    exact h.move (by simp [ht]) (by simp [ht]) (by simp) fun u hu =>
      iff_of_false (by simp) (hnone (by simp [ht]) hu)
  | semV t =>
    have ht : s.code t = .cleared := hen
    refine ⟨h.one.give (t := t) (by simp [ht]) (by simp) fun u hut hu => ?_,
      fun u => ?_, fun u hu => ?_, h.queuedOnce.tail⟩
    · simpa only [LockEvent.next, update_of_ne hut] using hu
    · by_cases hu : u = t
      · simp [hu, h.holder, ht]
      · simpa [hu] using h.holder u
    · exact h.queued_update (h.notMem_queue (by simp [ht])) u (List.mem_of_mem_tail hu)

theorem LockReach.inv (h : LockReach s) : LockInv s := by
  refine Reach.invariant (I := LockInv) ?_ (fun _ _ _ hs hst => hs.step hst) h
  rintro s rfl
  exact ⟨Or.inl ⟨rfl, fun t => by simp⟩, by simp, by simp, List.nodup_nil⟩

end invariant

/-- **Lock mutual exclusion.**  At most one thread is between the end of `mutex->P()` in `Acquire`
and the end of `mutex->V()` in `Release`; the value of the semaphore is 0 or 1; the lock holder, if
there is one, is that thread; and a thread whose `Acquire` has returned and that has not called
`Release` since passes the `ASSERT` of `Release`. -/
theorem lock_exclusion {s : LockState} (h : LockReach s) :
    (∀ t u, (s.code t).Inside → (s.code u).Inside → t = u) ∧
    (s.mutex.value = 0 ∨ s.mutex.value = 1) ∧
    (∀ t, s.lockHolder = some t → (s.code t).Inside) ∧
    (∀ t, s.code t = .holds → s.lockHolder = some t) := by
  have hinv := h.inv
  refine ⟨fun t u ht hu => hinv.unique ht hu, ?_, fun t ht => hinv.holder_inside ht,
    fun t ht => (hinv.holder t).2 (Or.inl ht)⟩
  rcases hinv.exclusive with ⟨hv, -⟩ | ⟨hv, -⟩
  · exact Or.inr hv
  · exact Or.inl hv

/-- Thread 1 has the lock and thread 2 waits for it. -/
theorem lock_exclusion_twoThreads :
    ∃ s, LockReach s ∧ s.code 1 = .holds ∧ s.mutex.queue = [2] ∧ s.lockHolder = some 1 ∧
      ∀ u, (s.code u).Inside → u = 1 := by
  obtain ⟨s, hr, h1, h2⟩ : ∃ s, LockReach s ∧ s.code 1 = .holds ∧ s.mutex.queue = [2] :=
    Reach.exists_run (exec_step LockEvent.enabled LockEvent.next) (.init rfl)
      [.acquire 1, .semP 1, .acquire 2, .semP 2, .setHolder 1] (by decide +kernel)
  obtain ⟨hunique, -, -, hholder⟩ := lock_exclusion hr
  exact ⟨s, hr, h1, h2, hholder 1 h1, fun u hu => hunique u 1 hu (by simp [h1])⟩

end Nachos
