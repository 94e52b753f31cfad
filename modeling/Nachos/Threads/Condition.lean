import Nachos.Threads.Lock

/-!
# Condition variables

`Condition::Wait`, `Signal` and `Broadcast` of `threads/synch.cc`, for any number of threads that
use one `Condition` with one `Lock`, and that hold the lock when they call.

* Every `Wait` has a semaphore of its own, made with value 0; the semaphores are numbered.
* The lock is that of `Nachos.Threads.Lock`: a step here takes a `LockStep` or leaves the lock
  alone, so that what holds of locks holds here.
* The fields after `code` are history: they are written, and never read.
-/

namespace Nachos

open Function Transition Update

/-- Where a thread is in the functions of `Condition`. -/
inductive CondCode
  | outside
  -- `Wait` with the semaphore `w`: past `waitQueue->Append`; past `waiter->P()`
  | waiting (w : ℕ)
  | waking (w : ℕ)
  -- `Broadcast`, at the test of its loop; `all` is the `waitQueue` it was called with
  | broadcast (all : List ℕ)
  -- `Signal`: at its test; past `waitQueue->Remove()`.  It returns to its caller, or to `Broadcast`
  | signal (caller : Option (List ℕ))
  | signalV (caller : Option (List ℕ)) (w : ℕ)
  deriving DecidableEq, Repr

namespace CondCode

/-- The code after `Signal`. -/
@[simp] def afterSignal : Option (List ℕ) → CondCode
  | none => outside
  | some all => broadcast all

/-- In `Signal` or `Broadcast`. -/
@[simp] def Signals : CondCode → Prop
  | broadcast _ => True
  | signal _ => True
  | signalV _ _ => True
  | _ => False

/-- In a `Broadcast` that was called with the queue `all`. -/
@[simp] def InBroadcast (all : List ℕ) : CondCode → Prop
  | broadcast all' => all' = all
  | signal caller => caller = some all
  | signalV caller _ => caller = some all
  | _ => False

end CondCode

/-- `class Condition`, its lock, the semaphores of the calls of `Wait`, and where threads are. -/
structure CondState where
  lock : LockState
  waitQueue : List ℕ
  sems : ℕ → Semaphore
  numSems : ℕ
  code : ℕ → CondCode
  -- the thread of every `Wait`
  owner : ℕ → ℕ
  -- every `Wait`, in the order in which they were queued
  queued : List ℕ
  -- those that `Signal` has removed from `waitQueue`, in this order
  selected : List ℕ

namespace CondState

/-- Continue thread `t` at `p`. -/
@[simp] def goto (t : ℕ) (p : CondCode) (s : CondState) : CondState :=
  { s with code := update s.code t p }

/-- Change the semaphore `w`. -/
@[simp] def setSem (w : ℕ) (sem : Semaphore) (s : CondState) : CondState :=
  { s with sems := update s.sems w sem }

/-- `waiter = new Semaphore("condition", 0); waitQueue->Append(waiter)`. -/
@[simp] def enqueue (t : ℕ) (s : CondState) : CondState :=
  { (s.setSem s.numSems ⟨0, []⟩).goto t (.waiting s.numSems) with
    waitQueue := s.waitQueue ++ [s.numSems]
    numSems := s.numSems + 1
    owner := update s.owner s.numSems t
    queued := s.queued ++ [s.numSems] }

/-- One pass through the loop of `waiter->P()`. -/
def semP (t w : ℕ) (s : CondState) : CondState :=
  let s' := s.setSem w ((s.sems w).tryP t).2
  if ((s.sems w).tryP t).1 then s'.goto t (.waking w) else s'

/-- `Signal` from its test to `waitQueue->Remove()`. -/
def select (t : ℕ) (caller : Option (List ℕ)) (s : CondState) : CondState :=
  match s.waitQueue with
  | [] => s.goto t (.afterSignal caller)
  | w :: rest => { s.goto t (.signalV caller w) with
      waitQueue := rest
      selected := s.selected ++ [w] }

/-- The test of the loop in `Broadcast`. -/
def loop (t : ℕ) (all : List ℕ) (s : CondState) : CondState :=
  s.goto t (if s.waitQueue = [] then .outside else .signal (some all))

end CondState

/-- The steps, with what is at hand where they are taken. -/
inductive CondEvent
  | lock (e : LockEvent)
  | wait (t : ℕ)
  | semP (t w : ℕ)
  | ret (t w : ℕ)
  | signal (t : ℕ)
  | select (t : ℕ) (caller : Option (List ℕ))
  | semV (t : ℕ) (caller : Option (List ℕ)) (w : ℕ)
  | broadcast (t : ℕ)
  | loop (t : ℕ) (all : List ℕ)
  deriving DecidableEq, Repr

namespace CondEvent

/-- Who takes the step. -/
@[simp] def thread : CondEvent → ℕ
  | lock e => e.thread
  | wait t => t
  | semP t _ => t
  | ret t _ => t
  | signal t => t
  | select t _ => t
  | semV t _ _ => t
  | broadcast t => t
  | loop t _ => t

/-- Which statements of the lock a thread may execute: outside of `Condition` all of them, in `Wait`
those of `Release`, and then those of `Acquire`. -/
def lockAllowed (e : LockEvent) : CondCode → Prop
  | .outside => True
  | .waiting _ => e.ofAcquire = false
  | .waking _ => e.ofAcquire = true
  | _ => False

instance decidableLockAllowed (e : LockEvent) (p : CondCode) : Decidable (lockAllowed e p) := by
  cases p <;> unfold lockAllowed <;> infer_instance

/-- When a step can be taken. -/
def enabled (s : CondState) : CondEvent → Prop
  | lock e => e.enabled s.lock ∧ lockAllowed e (s.code e.thread)
  | wait t => s.code t = .outside ∧ s.lock.code t = .holds
  | semP t w => s.code t = .waiting w ∧ s.lock.code t = .outside ∧ t ∉ (s.sems w).queue
  | ret t w => s.code t = .waking w ∧ s.lock.code t = .holds
  | signal t => s.code t = .outside ∧ s.lock.code t = .holds
  | select t caller => s.code t = .signal caller
  | semV t caller w => s.code t = .signalV caller w
  | broadcast t => s.code t = .outside ∧ s.lock.code t = .holds
  | loop t all => s.code t = .broadcast all

instance decidableEnabled (s : CondState) (e : CondEvent) : Decidable (e.enabled s) := by
  cases e <;> unfold enabled <;> infer_instance

/-- Take a step. -/
def next (s : CondState) : CondEvent → CondState
  | lock e => { s with lock := e.next s.lock }
  | wait t => s.enqueue t
  | semP t w => s.semP t w
  -- `delete waiter`
  | ret t _ => s.goto t .outside
  | signal t => s.goto t (.signal none)
  | select t caller => s.select t caller
  | semV t caller w => (s.setSem w (s.sems w).postV).goto t (.afterSignal caller)
  | broadcast t => s.goto t (.broadcast s.waitQueue)
  | loop t all => s.loop t all

end CondEvent

/-- One step of one thread. -/
def CondStep (s : CondState) (e : CondEvent) (s' : CondState) : Prop := e.enabled s ∧ s' = e.next s

/-- The lock is free, nobody waits, and everybody is elsewhere. -/
def CondInit (s : CondState) : Prop :=
  ∃ (sems : ℕ → Semaphore) (owner : ℕ → ℕ), s =
    { lock := ⟨none, ⟨1, []⟩, fun _ => .outside⟩
      waitQueue := []
      sems := sems
      numSems := 0
      code := fun _ => .outside
      owner := owner
      queued := []
      selected := [] }

/-- The states of all runs. -/
def CondReach (s : CondState) : Prop := Reach CondInit CondStep s

/-! ### The lock -/

section lock

variable {s s' : CondState} {e : CondEvent}

/-- Only the statements of the lock change it. -/
theorem CondStep.lock_eq (h : CondStep s e s') :
    (∃ e', e = .lock e' ∧ LockStep s.lock e' s'.lock) ∨ s'.lock = s.lock := by
  obtain ⟨hen, rfl⟩ := h
  cases e with
  | lock e' => exact Or.inl ⟨e', rfl, hen.1, rfl⟩
  | semP t w =>
    refine Or.inr ?_
    simp only [CondEvent.next, CondState.semP]
    split <;> rfl
  | select t caller =>
    refine Or.inr ?_
    simp only [CondEvent.next, CondState.select]
    split <;> rfl
  | _ => exact Or.inr rfl

theorem CondReach.lock (h : CondReach s) : LockReach s.lock := by
  refine Reach.simulation CondState.lock ?_ (fun s e s' _ hst => ?_) h
  · rintro s ⟨sems, owner, rfl⟩
    rfl
  · exact hst.lock_eq.symm.imp_right fun ⟨e', _, hl⟩ => ⟨e', hl⟩

end lock

/-! ### The invariant -/

/-- A `Signal` has selected `w` and not yet called `V` on its semaphore. -/
def CondState.Pending (s : CondState) (w : ℕ) : Prop := ∃ t caller, s.code t = .signalV caller w

/-- The semaphore of a `Wait`: the thread is asleep on it at most once, the value is 0 until `V`,
and then 1. -/
structure CondState.WaitsOn (s : CondState) (t w : ℕ) (sem : Semaphore) : Prop where
  asleep : sem.queue = [] ∨ sem.queue = [t]
  closed : w ∈ s.waitQueue ∨ s.Pending w → sem.value = 0
  opened : w ∈ s.selected → ¬ s.Pending w → sem.value = 1 ∧ sem.queue = []

/-- Thread `t` may be at `p`: in `Signal` and `Broadcast` it has the lock; `Broadcast` has selected
a first part of the queue it was called with, and calls `Signal` only when somebody waits. -/
structure CondState.Allows (s : CondState) (t : ℕ) (p : CondCode) : Prop where
  signals : p.Signals → s.lock.code t = .holds
  broadcast : ∀ all, p.InBroadcast all →
    ∃ before done, s.selected = before ++ done ∧ all = done ++ s.waitQueue
  tested : ∀ all, p = .signal (some all) → s.waitQueue ≠ []

/-- The invariant. -/
structure CondInv (s : CondState) : Prop where
  order : s.queued = s.selected ++ s.waitQueue
  once : s.queued.Nodup
  made : ∀ w ∈ s.queued, w < s.numSems
  waiting : ∀ t w, s.code t = .waiting w → w ∈ s.queued ∧ s.owner w = t
  waking : ∀ t w, s.code t = .waking w → w ∈ s.selected ∧ s.owner w = t
  waits : ∀ w ∈ s.waitQueue, s.code (s.owner w) = .waiting w
  pending : ∀ t caller w, s.code t = .signalV caller w →
    w ∈ s.selected ∧ s.code (s.owner w) = .waiting w
  sem : ∀ t w, s.code t = .waiting w → s.WaitsOn t w (s.sems w)
  allows : ∀ t, s.Allows t (s.code t)

section invariant

open CondState

variable {s s' : CondState} {t w : ℕ} {p : CondCode} {u : ℕ} {caller : Option (List ℕ)}

theorem CondState.goto_code_self : (s.goto t p).code t = p := update_self ..

theorem CondState.goto_code_of_ne (hu : u ≠ t) : (s.goto t p).code u = s.code u :=
  update_of_ne hu ..

/-- If `t` is at `q` after it went to `p`, and they differ, it was not `t`. -/
theorem CondState.of_goto_code {q : CondCode} (h : (s.goto t p).code u = q) (hpq : p ≠ q) :
    u ≠ t ∧ s.code u = q :=
  of_update_eq h hpq

theorem CondInv.signals (h : CondInv s) (ht : (s.code t).Signals) : s.lock.code t = .holds :=
  (h.allows t).signals ht

theorem CondInv.selected_sub (h : CondInv s) (hw : w ∈ s.selected) : w ∈ s.queued := by
  rw [h.order]
  exact List.mem_append_left _ hw

theorem CondInv.waitQueue_sub (h : CondInv s) (hw : w ∈ s.waitQueue) : w ∈ s.queued := by
  rw [h.order]
  exact List.mem_append_right _ hw

theorem CondInv.not_selected (h : CondInv s) (hw : w ∈ s.waitQueue) : w ∉ s.selected := by
  intro hsel
  have hnd := h.once
  rw [h.order] at hnd
  exact (List.nodup_append.1 hnd).2.2 w hsel w hw rfl

/-- Two threads in `Wait` have different semaphores. -/
theorem CondInv.waiting_unique (h : CondInv s) (ht : s.code t = .waiting w)
    (hu : s.code u = .waiting w) : u = t := by
  rw [← (h.waiting t w ht).2, (h.waiting u w hu).2]

theorem CondCode.InBroadcast.signals {all : List ℕ} (h : p.InBroadcast all) : p.Signals := by
  cases p <;> simp_all

theorem CondState.allows_of_not_signals (hp : ¬ p.Signals) : s.Allows t p where
  signals hs := absurd hs hp
  broadcast _ hb := absurd hb.signals hp
  tested _ heq := absurd (heq ▸ trivial) hp

/-- Who has the lock is the only one in `Signal` or `Broadcast`. -/
theorem CondInv.signals_unique (h : CondInv s) (hl : LockInv s.lock) (hold : s.lock.code t = .holds)
    (hu : (s.code u).Signals) : u = t :=
  hl.holds_unique (h.signals hu) hold

/-- While a thread is in `Signal` before `Remove`, or outside with the lock, nothing is pending. -/
theorem CondInv.not_pending (h : CondInv s) (hl : LockInv s.lock) (hold : s.lock.code t = .holds)
    (ht : ∀ caller v, s.code t ≠ .signalV caller v) : ¬ s.Pending w := by
  rintro ⟨u, caller, hu⟩
  have hut : u = t := h.signals_unique hl hold (by rw [hu]; trivial)
  subst hut
  exact ht caller w hu

/-! ### The semaphore of a `Wait` -/

/-- A step of a thread that neither begins nor ends a `V` on `w` leaves what is pending. -/
theorem CondState.pending_goto (hp : ∀ caller, p ≠ .signalV caller w)
    (ht : ∀ caller, s.code t ≠ .signalV caller w) : (s.goto t p).Pending w ↔ s.Pending w := by
  constructor
  · rintro ⟨u, caller, hu⟩
    exact ⟨u, caller, (of_goto_code hu (hp caller)).2⟩
  · rintro ⟨u, caller, hu⟩
    exact ⟨u, caller, update_eq_of hu (ht caller)⟩

theorem CondState.WaitsOn.goto {sem : Semaphore} (h : s.WaitsOn u w sem)
    (hpend : (s.goto t p).Pending w ↔ s.Pending w) : (s.goto t p).WaitsOn u w sem where
  asleep := h.asleep
  closed hc := h.closed (hc.imp_right hpend.1)
  opened hs hnp := h.opened hs fun hp => hnp (hpend.2 hp)

/-- Only the semaphore of one `Wait` changes. -/
theorem CondInv.setSem (h : CondInv s) {sem : Semaphore}
    (hsem : ∀ u, s.code u = .waiting w → s.WaitsOn u w sem) : CondInv (s.setSem w sem) := by
  have hall : ∀ u v, s.code u = .waiting v → s.WaitsOn u v ((s.setSem w sem).sems v) := by
    intro u v hu
    by_cases hv : v = w
    · subst hv
      simpa using hsem u hu
    · simpa [hv] using h.sem u v hu
  exact { h with
    sem := fun u v hu => { hall u v hu with }
    allows := fun u => { h.allows u with } }

/-! ### The steps -/

/-- A thread goes where it may be. -/
theorem CondInv.goto_allows (h : CondInv s) (hp : s.Allows t p) (u : ℕ) :
    s.Allows u ((s.goto t p).code u) := by
  by_cases hut : u = t
  · subst hut
    simpa using hp
  · simpa [hut] using h.allows u

/-- A thread leaves its `Wait` if the semaphore is open, and the `V` of a `Signal` if that semaphore
is the one that changes in the step; where it goes on it is in neither. -/
theorem CondInv.move (h : CondInv s) (w : ℕ) (sem : Semaphore) (p : CondCode)
    (hwait : ∀ v, s.code t = .waiting v → v ∉ s.waitQueue ∧ ¬ s.Pending v)
    (hsent : ∀ caller v, s.code t = .signalV caller v → v = w)
    (hto : ∀ caller v, p ≠ .waiting v ∧ p ≠ .signalV caller v)
    (hpk : ∀ v, p = .waking v → v ∈ s.selected ∧ s.owner v = t) (hp : s.Allows t p)
    (hsem : ∀ u, u ≠ t → s.code u = .waiting w →
      ((s.setSem w sem).goto t p).WaitsOn u w sem) :
    CondInv ((s.setSem w sem).goto t p) := by
  have hkeep : ∀ v, v ∈ s.waitQueue ∨ s.Pending v → s.code (s.owner v) = .waiting v →
      ((s.setSem w sem).goto t p).code (s.owner v) = .waiting v := by
    intro v hv hc
    refine (goto_code_of_ne ?_).trans hc
    intro ho
    obtain ⟨h1, h2⟩ := hwait v (ho ▸ hc)
    exact hv.elim h1 h2
  have hallows : ∀ u, s.Allows u ((s.goto t p).code u) := h.goto_allows hp
  refine ⟨h.order, h.once, h.made, fun u v hu => ?_, fun u v hu => ?_, fun v hv => ?_,
    fun u caller v hu => ?_, fun u v hu => ?_, fun u => { hallows u with }⟩
  · exact h.waiting u v (of_goto_code hu (hto none v).1).2
  · by_cases hut : u = t
    · subst hut
      exact hpk v (by simpa using hu)
    · exact h.waking u v (by simpa [hut] using hu)
  · exact hkeep v (Or.inl hv) (h.waits v hv)
  · have hu' := (of_goto_code hu (hto caller v).2).2
    obtain ⟨h1, h2⟩ := h.pending u caller v hu'
    exact ⟨h1, hkeep v (Or.inr ⟨u, caller, hu'⟩) h2⟩
  · obtain ⟨hut, hu'⟩ := of_goto_code hu (hto none v).1
    by_cases hv : v = w
    · subst hv
      simpa using hsem u hut hu'
    · have hold : (s.setSem w sem).WaitsOn u v (s.sems v) := { h.sem u v hu' with }
      simpa [hv] using hold.goto (pending_goto (fun caller => (hto caller v).2)
        fun caller ht => hv (hsent caller v ht))

/-- A thread goes on outside of `waiter->P()` and of `waiter->V()`. -/
theorem CondInv.goto (h : CondInv s)
    (hfrom : ∀ caller w, s.code t ≠ .waiting w ∧ s.code t ≠ .signalV caller w)
    (hto : ∀ caller w, p ≠ .waiting w ∧ p ≠ .signalV caller w) (hpk : ∀ w, p ≠ .waking w)
    (hp : s.Allows t p) : CondInv (s.goto t p) := by
  -- no semaphore changes, in particular not number 0
  have hsame : s.setSem 0 (s.sems 0) = s := by
    rw [CondState.setSem, update_eq_self]
  have hmove := h.move 0 (s.sems 0) p (fun v hv => absurd hv (hfrom none v).1)
    (fun caller v hv => absurd hv (hfrom caller v).2) hto (fun v hv => absurd hv (hpk v)) hp
  rw [hsame] at hmove
  refine hmove fun u _ hu => (h.sem u 0 hu).goto (pending_goto ?_ ?_)
  · exact fun caller => (hto caller 0).2
  · exact fun caller => (hfrom caller 0).2

/-- Who is in `Signal` or `Broadcast` executes nothing of the lock. -/
theorem CondInv.lockStep (h : CondInv s) {e : LockEvent}
    (ha : CondEvent.lockAllowed e (s.code e.thread)) :
    CondInv { s with lock := e.next s.lock } := by
  refine { h with
    sem := fun u v hu => { h.sem u v hu with }
    allows := fun u => { h.allows u with signals := fun hu => ?_ } }
  have hne : u ≠ e.thread := by
    rintro rfl
    cases hc : s.code e.thread <;> simp [hc, CondEvent.lockAllowed] at hu ha
  rw [LockEvent.next_code_of_ne hne]
  exact h.signals hu

/-- A `Wait` goes to sleep on its semaphore. -/
theorem CondInv.sleep (h : CondInv s) (ht : s.code t = .waiting w)
    (hq : (s.sems w).queue = []) (hv : (s.sems w).value = 0) :
    CondInv (s.setSem w ⟨(s.sems w).value, (s.sems w).queue ++ [t]⟩) := by
  refine h.setSem fun u hu => ?_
  have hut : u = t := h.waiting_unique ht hu
  subst hut
  refine ⟨Or.inr (by rw [hq]; rfl), fun _ => hv, fun hs hnp => ?_⟩
  have hone := ((h.sem u w ht).opened hs hnp).1
  rw [hv] at hone
  cases hone

/-- A `Wait` comes out of `waiter->P()`: the value was 1, so `w` has been selected, and `V` has been
called. -/
theorem CondInv.wake (h : CondInv s) (ht : s.code t = .waiting w) (hv : (s.sems w).value ≠ 0)
    (sem : Semaphore) : CondInv ((s.setSem w sem).goto t (.waking w)) := by
  have hnp : ¬ s.Pending w := fun hp => hv ((h.sem t w ht).closed (Or.inr hp))
  have hnq : w ∉ s.waitQueue := fun hm => hv ((h.sem t w ht).closed (Or.inl hm))
  obtain ⟨hm, howner⟩ := h.waiting t w ht
  have hsel : w ∈ s.selected := by
    rw [h.order] at hm
    exact (List.mem_append.1 hm).resolve_right hnq
  refine h.move w sem _ (fun v hv' => ?_) (by simp [ht]) (by simp) (fun v hv' => ?_)
    (allows_of_not_signals id) fun u hut hu => ?_
  · rw [ht] at hv'
    cases hv'
    exact ⟨hnq, hnp⟩
  · cases hv'
    exact ⟨hsel, howner⟩
  · exact absurd (h.waiting_unique ht hu) hut

/-- One pass through the loop of `waiter->P()`. -/
theorem CondInv.semP (h : CondInv s) (ht : s.code t = .waiting w)
    (hq : t ∉ (s.sems w).queue) : CondInv (s.semP t w) := by
  have hempty : (s.sems w).queue = [] :=
    (h.sem t w ht).asleep.resolve_right fun he => hq (by simp [he])
  by_cases hv : (s.sems w).value = 0
  · simp only [CondState.semP, Semaphore.tryP_of_zero hv]
    exact h.sleep ht hempty hv
  · simp only [CondState.semP, Semaphore.tryP_of_ne hv]
    exact h.wake ht hv _

/-- `Signal` returns to its caller. -/
theorem CondInv.allows_afterSignal (h : CondInv s)
    (ht : ∀ all, caller = some all → (s.code t).InBroadcast all) :
    s.Allows t (.afterSignal caller) := by
  cases caller with
  | none => exact allows_of_not_signals id
  | some all =>
    refine ⟨fun _ => h.signals (ht all rfl).signals, ?_, by simp⟩
    rintro all' rfl
    exact (h.allows t).broadcast all (ht all rfl)

/-- `Signal` calls `V` on the semaphore it has taken. -/
theorem CondInv.semV (h : CondInv s) (hl : LockInv s.lock) (ht : s.code t = .signalV caller w) :
    CondInv ((s.setSem w (s.sems w).postV).goto t (.afterSignal caller)) := by
  have hold : s.lock.code t = .holds := h.signals (by rw [ht]; trivial)
  obtain ⟨hsel, howner⟩ := h.pending t caller w ht
  have hsem := h.sem _ w howner
  have hvalue := hsem.closed (Or.inr ⟨t, caller, ht⟩)
  have hself : (s.sems w).postV = ⟨1, []⟩ := by
    rcases hsem.asleep with hq | hq <;> simp [hvalue, hq]
  refine h.move w _ _ (by simp [ht]) (fun c v hv => ?_) (by cases caller <;> simp)
    (by cases caller <;> simp) (h.allows_afterSignal (by simp [ht])) fun u hut hu => ?_
  · rw [ht] at hv
    cases hv
    rfl
  · rw [hself]
    refine ⟨Or.inl rfl, fun hc => ?_, fun _ _ => ⟨rfl, rfl⟩⟩
    rcases hc with hm | ⟨x, c, hx⟩
    · exact absurd hsel (h.not_selected hm)
    · obtain ⟨hxt, hx'⟩ := of_goto_code hx (by cases caller <;> simp)
      have hx'' : s.code x = .signalV c w := hx'
      exact absurd (h.signals_unique hl hold (by rw [hx'']; trivial)) hxt

/-- `Signal` takes the first semaphore of the queue. -/
theorem CondInv.remove (h : CondInv s) (hl : LockInv s.lock) {rest : List ℕ}
    (ht : s.code t = .signal caller) (hq : s.waitQueue = w :: rest) :
    CondInv { s.goto t (.signalV caller w) with
      waitQueue := rest
      selected := s.selected ++ [w] } := by
  have hold : s.lock.code t = .holds := h.signals (by rw [ht]; trivial)
  have hw : w ∈ s.waitQueue := by
    rw [hq]
    exact List.mem_cons_self
  have hrest : ∀ v ∈ rest, v ∈ s.waitQueue := fun v hv => by
    rw [hq]
    exact List.mem_cons_of_mem _ hv
  have hnone : ∀ v, ¬ s.Pending v := fun v => h.not_pending hl hold (by simp [ht])
  have hkeep : ∀ u v, s.code u = .waiting v → (s.goto t (.signalV caller w)).code u = .waiting v :=
    fun u v hu => update_eq_of hu (by simp [ht])
  have hback : ∀ u v, (s.goto t (.signalV caller w)).code u = .waiting v → s.code u = .waiting v :=
    fun u v hu => (of_goto_code hu (by simp)).2
  have hpend : ∀ v, (s.goto t (.signalV caller w)).Pending v → v = w := by
    rintro v ⟨u, c, hu⟩
    by_contra hv
    exact hnone v ⟨u, c, (of_goto_code hu (by simp [Ne.symm hv])).2⟩
  refine ⟨?_, h.once, h.made, fun u v hu => h.waiting u v (hback u v hu), fun u v hu => ?_,
    fun v hv => hkeep _ v (h.waits v (hrest v hv)), fun u c v hu => ?_,
    fun u v hu => ⟨(h.sem u v (hback u v hu)).asleep, fun hc => ?_, fun hs hnp => ?_⟩, fun u => ?_⟩
  · rw [List.append_assoc, List.singleton_append, ← hq]
    exact h.order
  · obtain ⟨h1, h2⟩ := h.waking u v (of_goto_code hu (by simp)).2
    exact ⟨List.mem_append_left _ h1, h2⟩
  · obtain rfl := hpend v ⟨u, c, hu⟩
    exact ⟨List.mem_append_right _ List.mem_cons_self, hkeep _ v (h.waits v hw)⟩
  · refine (h.sem u v (hback u v hu)).closed (Or.inl ?_)
    rcases hc with hc | hc
    · exact hrest v hc
    · rw [hpend v hc]
      exact hw
  · have hvw : v ≠ w := by
      rintro rfl
      exact hnp ⟨t, caller, goto_code_self⟩
    have hsel := (List.mem_append.1 hs).resolve_right fun hm => hvw (List.mem_singleton.1 hm)
    exact (h.sem u v (hback u v hu)).opened hsel (hnone v)
  · -- who signals has the lock, so it is `t`
    by_cases hut : u = t
    · subst hut
      rw [show (s.goto u (.signalV caller w)).code u = _ from goto_code_self]
      refine ⟨fun _ => hold, fun all hb => ?_, by simp⟩
      obtain ⟨before, done, h1, h2⟩ := (h.allows u).broadcast all (by rw [ht]; exact hb)
      exact ⟨before, done ++ [w], by rw [h1, List.append_assoc], by rw [h2, hq]; simp⟩
    · rw [show (s.goto t (.signalV caller w)).code u = _ from goto_code_of_ne hut]
      exact allows_of_not_signals fun hu => hut (h.signals_unique hl hold hu)

/-- Everybody in `Wait` after `enqueue` is the new one or was there before. -/
theorem CondState.of_enqueue_waiting (hu : (s.enqueue t).code u = .waiting w) :
    (u = t ∧ w = s.numSems) ∨ s.code u = .waiting w := by
  rcases update_cases hu with ⟨hut, hw⟩ | ⟨-, hu'⟩
  · cases hw
    exact Or.inl ⟨hut, rfl⟩
  · exact Or.inr hu'

/-- A semaphore that was queued is not the new one. -/
theorem CondInv.queued_ne (h : CondInv s) (hw : w ∈ s.queued) : w ≠ s.numSems :=
  Nat.ne_of_lt (h.made w hw)

/-- A thread that has the lock queues a new semaphore. -/
theorem CondInv.enqueue (h : CondInv s) (hl : LockInv s.lock) (ht : s.code t = .outside)
    (hold : s.lock.code t = .holds) : CondInv (s.enqueue t) := by
  have howner : ∀ w ∈ s.queued, (s.enqueue t).owner w = s.owner w := fun w hw =>
    update_of_ne (h.queued_ne hw) ..
  have hkeep : ∀ u q, s.code u = q → q ≠ .outside → (s.enqueue t).code u = q := fun u q hu hq =>
    update_eq_of hu fun he => hq (he.symm.trans ht)
  have hother : ∀ u q, (s.enqueue t).code u = q → (∀ w, q ≠ .waiting w) → s.code u = q :=
    fun u q hu hq => (of_update_eq hu (Ne.symm (hq _))).2
  have hpend : ∀ w, (s.enqueue t).Pending w ↔ s.Pending w := fun w =>
    pending_goto (s := s) (by simp) (by simp [ht])
  refine ⟨?_, ?_, fun w hw => ?_, fun u w hu => ?_, fun u w hu => ?_, fun w hw => ?_,
    fun u caller w hu => ?_, fun u w hu => ?_,
    fun u => allows_of_not_signals fun hu => ?_⟩
  · simp [h.order]
  · refine List.nodup_append.2 ⟨h.once, List.nodup_singleton _, ?_⟩
    rintro a ha b hb rfl
    exact h.queued_ne ha (List.mem_singleton.1 hb)
  · rcases List.mem_append.1 hw with h1 | h1
    · exact Nat.lt_succ_of_lt (h.made w h1)
    · rw [List.mem_singleton.1 h1]
      exact Nat.lt_succ_self _
  · rcases of_enqueue_waiting hu with ⟨rfl, rfl⟩ | hu'
    · exact ⟨List.mem_append_right _ List.mem_cons_self, update_self ..⟩
    · obtain ⟨h1, h2⟩ := h.waiting u w hu'
      exact ⟨List.mem_append_left _ h1, (howner w h1).trans h2⟩
  · obtain ⟨h1, h2⟩ := h.waking u w (hother u _ hu (by simp))
    exact ⟨h1, (howner w (h.selected_sub h1)).trans h2⟩
  · rcases List.mem_append.1 hw with h1 | h1
    · rw [howner w (h.waitQueue_sub h1)]
      exact hkeep _ _ (h.waits w h1) (by simp)
    · simp [List.mem_singleton.1 h1]
  · obtain ⟨h1, h2⟩ := h.pending u caller w (hother u _ hu (by simp))
    refine ⟨h1, ?_⟩
    rw [howner w (h.selected_sub h1)]
    exact hkeep _ _ h2 (by simp)
  · -- the new semaphore is closed, and the others are as before
    rcases of_enqueue_waiting hu with ⟨rfl, rfl⟩ | hu'
    · refine ⟨Or.inl (by simp), fun _ => by simp, fun hs _ => ?_⟩
      exact absurd rfl (h.queued_ne (h.selected_sub hs))
    · have hq := (h.waiting u w hu').1
      have hw := h.sem u w hu'
      rw [show (s.enqueue t).sems w = s.sems w from update_of_ne (h.queued_ne hq) ..]
      refine ⟨hw.asleep, fun hc => hw.closed (hc.imp (fun hm => ?_) (hpend w).1),
        fun hs hnp => hw.opened hs fun hp => hnp ((hpend w).2 hp)⟩
      refine (List.mem_append.1 hm).resolve_right fun h1 => ?_
      exact h.queued_ne hq (List.mem_singleton.1 h1)
  · -- nobody is in `Signal` or `Broadcast`, because `t` has the lock
    obtain ⟨hut, hs⟩ := of_update (P := CondCode.Signals) hu id
    exact absurd (h.signals_unique hl hold hs) hut

theorem CondInv.step {e : CondEvent} (h : CondInv s) (hl : LockInv s.lock) (hst : CondStep s e s') :
    CondInv s' := by
  obtain ⟨hen, rfl⟩ := hst
  cases e with
  | lock e => exact h.lockStep hen.2
  | wait t => exact h.enqueue hl hen.1 hen.2
  | semP t w => exact h.semP hen.1 hen.2.2
  | ret t w =>
    have ht : s.code t = .waking w := hen.1
    exact h.goto (by simp [ht]) (by simp) (by simp) (allows_of_not_signals id)
  | signal t =>
    have ht : s.code t = .outside := hen.1
    exact h.goto (by simp [ht]) (by simp) (by simp) ⟨fun _ => hen.2, by simp, by simp⟩
  | select t caller =>
    have ht : s.code t = .signal caller := hen
    simp only [CondEvent.next, CondState.select]
    split
    · exact h.goto (by simp [ht]) (by cases caller <;> simp) (by cases caller <;> simp)
        (h.allows_afterSignal (by simp [ht]))
    · rename_i w rest hq
      exact h.remove hl ht hq
  | semV t caller w => exact h.semV hl hen
  | broadcast t =>
    have ht : s.code t = .outside := hen.1
    refine h.goto (by simp [ht]) (by simp) (by simp) ⟨fun _ => hen.2, ?_, by simp⟩
    rintro all rfl
    exact ⟨s.selected, [], (List.append_nil _).symm, rfl⟩
  | loop t all =>
    have ht : s.code t = .broadcast all := hen
    simp only [CondEvent.next, CondState.loop]
    split
    · exact h.goto (by simp [ht]) (by simp) (by simp) (allows_of_not_signals id)
    · refine h.goto (by simp [ht]) (by simp) (by simp) ⟨?_, fun all' hb => ?_, fun _ _ => ‹_›⟩
      · exact fun _ => h.signals (by rw [ht]; trivial)
      · exact (h.allows t).broadcast all' (by rw [ht]; exact Option.some.inj hb)

theorem CondReach.inv (h : CondReach s) : CondInv s := by
  refine Reach.invariant_of (J := fun s => LockInv s.lock)
    (fun s hs => (CondReach.lock hs).inv) ?_ (fun _ _ _ hl hs hst => hs.step hl hst) h
  rintro s ⟨sems, owner, rfl⟩
  exact ⟨rfl, List.nodup_nil, by simp, by simp, by simp, by simp, by simp, by simp,
    fun t => allows_of_not_signals id⟩

end invariant

/-! ### Signal and Broadcast are not disturbed -/

section undisturbed

variable {s s' : CondState} {t : ℕ} {e : CondEvent}

/-- A step moves no other thread. -/
theorem CondStep.code_of_ne (hst : CondStep s e s') (hne : e.thread ≠ t) :
    s'.code t = s.code t := by
  obtain ⟨-, rfl⟩ := hst
  have hcode : ∀ (s₀ : CondState) u p, u ≠ t → (s₀.goto u p).code t = s₀.code t := fun _ u p hu =>
    update_of_ne (Ne.symm hu) ..
  cases e with
  | lock e => rfl
  | wait u | ret u w | signal u | semV u caller w | broadcast u | loop u all =>
    exact hcode _ u _ hne
  | semP u w =>
    simp only [CondEvent.next, CondState.semP]
    split
    · exact hcode _ u _ hne
    · rfl
  | select u caller =>
    simp only [CondEvent.next, CondState.select]
    split <;> exact hcode _ u _ hne

/-- The other threads leave the queue to the thread that has the lock. -/
theorem CondStep.undisturbed (hl : LockInv s.lock) (hi : CondInv s) (hst : CondStep s e s')
    (hold : s.lock.code t = .holds) (hne : e.thread ≠ t) :
    s'.waitQueue = s.waitQueue ∧ s'.selected = s.selected ∧ s'.code t = s.code t := by
  have hcode := hst.code_of_ne hne
  obtain ⟨hen, rfl⟩ := hst
  -- who changes the queue has the lock
  have hlock : ∀ u, s.lock.code u = .holds → u = t := fun u hu => hl.holds_unique hu hold
  cases e with
  | wait u => exact absurd (hlock u hen.2) hne
  | semP u w =>
    refine ⟨?_, ?_, hcode⟩ <;> · simp only [CondEvent.next, CondState.semP]; split <;> rfl
  | select u caller =>
    have hu : s.code u = .signal caller := hen
    exact absurd (hlock u (hi.signals (by rw [hu]; trivial))) hne
  | _ => exact ⟨rfl, rfl, hcode⟩

/-- An upper bound for the steps that a thread still takes in `Broadcast`. -/
def CondState.remaining (s : CondState) (t : ℕ) : ℕ :=
  match s.code t with
  | .broadcast _ => 3 * s.waitQueue.length + 1
  | .signal _ => 3 * s.waitQueue.length
  | .signalV _ _ => 3 * s.waitQueue.length + 2
  | _ => 0

/-- The steps of a thread in `Signal` or `Broadcast`. -/
theorem CondEvent.of_signals (hen : e.enabled s) (hsig : (s.code e.thread).Signals) :
    (∃ t caller, e = .select t caller) ∨ (∃ t caller w, e = .semV t caller w) ∨
      ∃ t all, e = .loop t all := by
  cases e with
  | lock e =>
    have ha := hen.2
    cases hc : s.code e.thread <;>
      simp [hc, CondEvent.lockAllowed] at hsig ha
  | select t caller => exact Or.inl ⟨t, caller, rfl⟩
  | semV t caller w => exact Or.inr (Or.inl ⟨t, caller, w, rfl⟩)
  | loop t all => exact Or.inr (Or.inr ⟨t, all, rfl⟩)
  | _ => simp [hen.1] at hsig

/-- A thread in `Broadcast` can go on. -/
theorem CondState.broadcast_enabled {all : List ℕ} (h : (s.code t).InBroadcast all) :
    ∃ e s', e.thread = t ∧ CondStep s e s' := by
  cases hc : s.code t with
  | broadcast all' => exact ⟨.loop t all', _, rfl, hc, rfl⟩
  | signal caller => exact ⟨.select t caller, _, rfl, hc, rfl⟩
  | signalV caller w => exact ⟨.semV t caller w, _, rfl, hc, rfl⟩
  | _ => simp [hc] at h

/-- With every step of its own it comes closer to the end. -/
theorem CondStep.broadcast_lt {all : List ℕ} (hi : CondInv s) (hst : CondStep s e s')
    (h : (s.code e.thread).InBroadcast all) :
    s'.remaining e.thread < s.remaining e.thread := by
  obtain ⟨hen, rfl⟩ := hst
  rcases CondEvent.of_signals hen h.signals with ⟨t, caller, rfl⟩ | ⟨t, caller, w, rfl⟩ |
    ⟨t, all', rfl⟩
  · have ht : s.code t = .signal caller := hen
    have hcaller : caller = some all := by
      rw [show s.code (CondEvent.select t caller).thread = _ from ht] at h
      exact h
    obtain ⟨w, rest, hq⟩ := List.exists_cons_of_ne_nil
      ((hi.allows t).tested all (by rw [ht, hcaller]))
    have hnext : (CondEvent.select t caller).next s = { s.goto t (.signalV caller w) with
        waitQueue := rest
        selected := s.selected ++ [w] } := by
      simp only [CondEvent.next, CondState.select, hq]
    rw [hnext]
    simp only [CondState.remaining, CondEvent.thread, CondState.goto, update_self, ht, hq,
      List.length_cons]
    omega
  · have ht : s.code t = .signalV caller w := hen
    have hcaller : caller = some all := by
      rw [show s.code (CondEvent.semV t caller w).thread = _ from ht] at h
      exact h
    subst hcaller
    simp only [CondState.remaining, CondEvent.thread, CondEvent.next, CondState.goto,
      CondState.setSem, CondCode.afterSignal, update_self, ht]
    omega
  · have ht : s.code t = .broadcast all' := hen
    simp only [CondState.remaining, CondEvent.thread, CondEvent.next, CondState.loop,
      CondState.goto, update_self, ht]
    split_ifs with hq
    · simp only
      omega
    · simp only
      omega

end undisturbed

/-! ### No wake-up is lost or invented -/

/-- What a condition variable promises. -/
structure Wakeups (s : CondState) : Prop where
  /-- The calls of `Wait` are selected in the order in which they were queued, each once. -/
  fifo : s.queued = s.selected ++ s.waitQueue ∧ s.queued.Nodup
  /-- A new `Wait` has not been selected yet, and only `Signal` selects. -/
  afterwards : (∀ t s', CondStep s (.wait t) s' →
      s'.code t = .waiting s.numSems ∧ s.numSems ∈ s'.waitQueue ∧ s.numSems ∉ s'.selected) ∧
    ∀ e s', CondStep s e s' → (∃ t caller, e = .select t caller) ∨ s'.selected = s.selected
  /-- A `Wait` that is past `waiter->P()` has been selected. -/
  invented : ∀ t w, s.code t = .waking w → w ∈ s.selected
  /-- It returns with the lock. -/
  returns : ∀ t w s', CondStep s (.ret t w) s' → w ∈ s.selected ∧ s'.lock.lockHolder = some t
  /-- Until it is selected, `waiter->P()` does not let it through. -/
  blocked : ∀ t w, s.code t = .waiting w → w ∈ s.waitQueue → (s.sems w).value = 0
  /-- Once `Signal` is done with it, it is awake and `waiter->P()` lets it through, whether it was
  asleep or had not come to `waiter->P()` yet. -/
  lost : ∀ t w, s.code t = .waiting w → w ∈ s.selected → ¬ s.Pending w →
    (s.sems w).value = 1 ∧ t ∉ (s.sems w).queue
  /-- `Signal` selects the `Wait` that has been queued for the longest time; when there is none it
  leaves everything as it was. -/
  signal : ∀ t caller s', CondStep s (.select t caller) s' →
    (s.waitQueue = [] ∧ s' = s.goto t (.afterSignal caller)) ∨
    ∃ w rest, s.waitQueue = w :: rest ∧ s.code (s.owner w) = .waiting w ∧
      s'.waitQueue = rest ∧ s'.selected = s.selected ++ [w] ∧ s'.code t = .signalV caller w
  /-- Nobody else touches the queue in the meantime. -/
  alone : ∀ t e s', (s.code t).Signals → CondStep s e s' → e.thread ≠ t →
    s'.waitQueue = s.waitQueue ∧ s'.selected = s.selected ∧ s'.code t = s.code t
  /-- `Broadcast` has selected a first part of the queue it was called with, and the rest is still
  there; when the loop ends, it has selected all of it. -/
  broadcast : ∀ t all, (s.code t).InBroadcast all →
    ∃ before done, s.selected = before ++ done ∧ all = done ++ s.waitQueue
  broadcastEnds : ∀ t all s', CondStep s (.loop t all) s' → s'.code t = .outside →
    ∀ w ∈ all, w ∈ s.selected
  /-- `Broadcast` terminates: its thread can always go on, with each step of its own it comes closer
  to the end, and the steps of the others do not take it back. -/
  terminates : ∀ t all, (s.code t).InBroadcast all →
    (∃ e s', e.thread = t ∧ CondStep s e s') ∧
    ∀ e s', CondStep s e s' → (e.thread = t → s'.remaining t < s.remaining t) ∧
      (e.thread ≠ t → s'.remaining t = s.remaining t)

/-- **Condition variables lose and invent no wake-ups**, in any interleaving of `Wait`, `Signal` and
`Broadcast` by threads that hold the lock when they call. -/
theorem condition_wakeups {s : CondState} (h : CondReach s) : Wakeups s := by
  have hl := h.lock.inv
  have hi := h.inv
  refine ⟨⟨hi.order, hi.once⟩, ⟨?_, ?_⟩, fun t w ht => (hi.waking t w ht).1, ?_, ?_, ?_, ?_, ?_,
    fun t => (hi.allows t).broadcast, ?_, ?_⟩
  · rintro t s' ⟨-, rfl⟩
    refine ⟨update_self .., List.mem_append_right _ List.mem_cons_self, fun hm => ?_⟩
    exact absurd (hi.made _ (hi.selected_sub hm)) (Nat.lt_irrefl _)
  · rintro e s' ⟨-, rfl⟩
    cases e with
    | select t caller => exact Or.inl ⟨t, caller, rfl⟩
    | semP t w =>
      refine Or.inr ?_
      simp only [CondEvent.next, CondState.semP]
      split <;> rfl
    | _ => exact Or.inr rfl
  · rintro t w s' ⟨⟨ht, hold⟩, rfl⟩
    exact ⟨(hi.waking t w ht).1, (hl.holder t).2 (Or.inl hold)⟩
  · intro t w ht hw
    exact (hi.sem t w ht).closed (Or.inl hw)
  · intro t w ht hw hp
    obtain ⟨hv, hq⟩ := (hi.sem t w ht).opened hw hp
    exact ⟨hv, by rw [hq]; exact List.not_mem_nil⟩
  · rintro t caller s' ⟨-, rfl⟩
    simp only [CondEvent.next, CondState.select]
    split
    · rename_i hq
      exact Or.inl ⟨hq, rfl⟩
    · rename_i w rest hq
      refine Or.inr ⟨w, rest, hq, hi.waits w ?_, rfl, rfl, update_self ..⟩
      rw [hq]
      exact List.mem_cons_self
  · intro t e s' hsig hst hne
    exact hst.undisturbed hl hi (hi.signals hsig) hne
  · rintro t all s' ⟨ht, rfl⟩ hout w hw
    have ht' : s.code t = .broadcast all := ht
    have hempty : s.waitQueue = [] := by
      by_contra hq
      simp [CondEvent.next, CondState.loop, hq] at hout
    obtain ⟨before, done, h1, h2⟩ := (hi.allows t).broadcast all (by rw [ht']; rfl)
    rw [hempty, List.append_nil] at h2
    rw [h1, ← h2]
    exact List.mem_append_right _ hw
  · intro t all hb
    refine ⟨CondState.broadcast_enabled hb, fun e s' hst => ⟨?_, fun hne => ?_⟩⟩
    · rintro rfl
      exact hst.broadcast_lt hi hb
    · obtain ⟨h1, -, h2⟩ := hst.undisturbed hl hi (hi.signals hb.signals) hne
      simp only [CondState.remaining, h1, h2]

/-- A condition variable that nobody uses. -/
def newCondition : CondState where
  lock := ⟨none, ⟨1, []⟩, fun _ => .outside⟩
  waitQueue := []
  sems := fun _ => ⟨0, []⟩
  numSems := 0
  code := fun _ => .outside
  owner := fun _ => 0
  queued := []
  selected := []

theorem newCondition_init : CondInit newCondition := ⟨_, _, rfl⟩

/-- `Acquire` by thread `t`, without waiting. -/
def acquires (t : ℕ) : List CondEvent :=
  [.lock (.acquire t), .lock (.semP t), .lock (.setHolder t)]

/-- `Release` by thread `t`. -/
def releases (t : ℕ) : List CondEvent :=
  [.lock (.release t), .lock (.clearHolder t), .lock (.semV t)]

/-- Thread 1 has released the lock in `Wait`, and is signalled before it goes to sleep. -/
def signalledEarly : List CondEvent :=
  acquires 1 ++ [.wait 1] ++ releases 1 ++ acquires 2 ++
    [.signal 2, .select 2 none, .semV 2 none 0]

theorem condition_wakeups_notAsleep :
    ∃ s, CondReach s ∧ s.code 1 = .waiting 0 ∧ (s.sems 0).value = 1 ∧ 1 ∉ (s.sems 0).queue := by
  obtain ⟨s, hr, h1, h2, h3, h4⟩ : ∃ s, CondReach s ∧ s.code 1 = .waiting 0 ∧ s.selected = [0] ∧
      s.code 2 = .outside ∧ s.lock.code 2 = .holds :=
    Reach.exists_run (exec_step CondEvent.enabled CondEvent.next)
      (.init newCondition_init) signalledEarly (by decide +kernel)
  have hp : ¬ s.Pending 0 := hr.inv.not_pending hr.lock.inv h4 (by simp [h3])
  exact ⟨s, hr, h1, (condition_wakeups hr).lost 1 0 h1 (by simp [h2]) hp⟩

end Nachos
