import Nachos.Threads.Lock
import Nachos.Threads.Semaphore

/-!
# `P` and `V` are atomic

`Nachos.Threads.Kernel` has `Semaphore::P` and `Semaphore::V` statement by statement; locks,
conditions and the console use one step for a pass through the loop of `P` (`Semaphore.tryP`) and
one for `V` (`Semaphore.postV`).  The runs of the kernel justify it.

* `V` takes effect at `queue->Remove`: `Kernel.semaphore` is what a semaphore amounts to when the
  `V` that is at `value++` has come to its end.
* `KernelStep.atomic`: seen so, a step of the kernel is one pass of a `P`, a `V`, or nothing.
* `kernel_semaphores_atomic`: every run of the kernel is, operation by operation, a run of `SemStep`
  on each semaphore.
-/

namespace Nachos

open Kernel Function Transition

/-- What is done to a semaphore. -/
inductive SemOp
  | P (t : ℕ)
  | V
  deriving DecidableEq, Repr

/-- One pass of a `P` by a thread that does not wait, or a `V`. -/
def SemStep (sem : Semaphore) (o : SemOp) (sem' : Semaphore) : Prop :=
  match o with
  | .P t => t ∉ sem.queue ∧ sem' = (sem.tryP t).2
  | .V => sem' = sem.postV

/-- The semaphore `x`, with the `value++` of a `V` that has done its `Remove`. -/
def Kernel.semaphore (s : Kernel) (x : ℕ) : Semaphore :=
  match s.place s.running with
  | .vAdd y _ => if y = x then ⟨(s.sems x).value + 1, (s.sems x).queue⟩ else s.sems x
  | _ => s.sems x

/-- What a step of the kernel does to the semaphore `x`. -/
def Event.op (x : ℕ) : Event → Option SemOp
  | .test t y _ _ => if y = x then some (.P t) else none
  | .remove _ y _ => if y = x then some .V else none
  | _ => none

section semaphore

variable {s s' : Kernel} {e : Event} {a : Option ℕ} {t x y : ℕ} {oldLevel : IntStatus}

theorem Kernel.semaphore_of_vAdd (ha : s.running = a) (hp : s.place a = .vAdd y oldLevel) :
    s.semaphore x =
      if y = x then ⟨(s.sems x).value + 1, (s.sems x).queue⟩ else s.sems x := by
  subst ha
  simp only [Kernel.semaphore, hp]

theorem Kernel.semaphore_of_ne (ha : s.running = a)
    (hp : ∀ y oldLevel, s.place a ≠ .vAdd y oldLevel) : s.semaphore x = s.sems x := by
  subst ha
  unfold Kernel.semaphore
  split
  · rename_i y oldLevel hy
    exact absurd hy (hp y oldLevel)
  · rfl

/-- At `value++` there is nothing to do but this. -/
theorem Event.eq_add (hen : e.enabled s) (hp : s.place s.running = .vAdd y oldLevel) :
    ∃ a, e = .add a y oldLevel := by
  cases e with
  | add a z l =>
    obtain ⟨ha, hz⟩ := hen
    rw [ha, hz] at hp
    cases hp
    exact ⟨a, rfl⟩
  | dispatch t n rest =>
    obtain ⟨ha, hasleep, -⟩ := hen
    rw [← ha, hp] at hasleep
    exact absurd hasleep id
  | interrupt t =>
    obtain ⟨ha, ⟨inCall, htick⟩ | hasleep⟩ := hen
    · rw [← ha, hp] at htick
      cases htick
    · rw [← ha, hp] at hasleep
      exact absurd hasleep id
  | handlerEnd =>
    obtain ⟨hi, ho⟩ := hen
    simp [running, hi, ho] at hp
  | _ => simp [hen.1, hen.2] at hp

/-- One pass through the loop of `P`: what `tryP` says becomes of the semaphore and the thread. -/
theorem Kernel.test_atomic {woken : Bool} (ha : s.running = some t)
    (hp : s.place (some t) = .pTest x oldLevel woken) :
    (s.test t x oldLevel woken).semaphore x = ((s.semaphore x).tryP t).2 ∧
    (∀ y, y ≠ x → (s.test t x oldLevel woken).semaphore y = s.semaphore y) ∧
    (s.test t x oldLevel woken).place (some t) =
      if ((s.semaphore x).tryP t).1 then .pDone x oldLevel else .pSleep x oldLevel := by
  have hrun : (s.test t x oldLevel woken).running = some t := by
    rw [← ha]
    unfold Kernel.test
    cases woken <;> dsimp only [retest] <;> split_ifs <;> rfl
  have hbefore : ∀ y, s.semaphore y = s.sems y := fun y => semaphore_of_ne ha (by simp [hp])
  have hplace : (s.test t x oldLevel woken).place (some t) =
      if ((s.sems x).tryP t).1 then .pDone x oldLevel else .pSleep x oldLevel := by
    unfold Kernel.test Semaphore.tryP
    simp only [retest_sems]
    split_ifs <;> simp_all
  have hafter : ∀ y, (s.test t x oldLevel woken).semaphore y =
      (s.test t x oldLevel woken).sems y := by
    refine fun y => semaphore_of_ne hrun ?_
    rw [hplace]
    split_ifs <;> simp
  have hsems : (s.test t x oldLevel woken).sems =
      update s.sems x ((s.sems x).tryP t).2 := by
    unfold Kernel.test Semaphore.tryP
    simp only [retest_sems]
    split_ifs <;> simp
  refine ⟨?_, fun y hy => ?_, ?_⟩
  · rw [hafter, hbefore, hsems, update_self]
  · rw [hafter, hbefore, hsems, update_of_ne hy]
  · rw [hbefore, hplace]

/-- `V` takes effect when it removes a thread from the queue. -/
theorem Kernel.remove_atomic (ha : s.running = a) (hp : s.place a = .vRemove x oldLevel) :
    (s.remove a x oldLevel).semaphore x = (s.semaphore x).postV ∧
    ∀ y, y ≠ x → (s.remove a x oldLevel).semaphore y = s.semaphore y := by
  have hrun : (s.remove a x oldLevel).running = a := by
    rw [← ha]
    unfold Kernel.remove
    split <;> rfl
  have hplace : (s.remove a x oldLevel).place a = .vAdd x oldLevel := by
    unfold Kernel.remove
    split <;> exact update_self ..
  have hbefore : ∀ y, s.semaphore y = s.sems y := fun y => semaphore_of_ne ha (by simp [hp])
  have hsems : (s.remove a x oldLevel).sems =
      update s.sems x ⟨(s.sems x).value, (s.sems x).queue.tail⟩ := by
    unfold Kernel.remove
    split
    · rename_i hq
      rw [hq, List.tail_nil, ← hq]
      exact (update_eq_self x s.sems).symm
    · rename_i u queue hq
      rw [hq]
      rfl
  refine ⟨?_, fun y hy => ?_⟩
  · rw [semaphore_of_vAdd hrun hplace, if_pos rfl, hbefore, hsems, update_self]
    rfl
  · rw [semaphore_of_vAdd hrun hplace, if_neg (Ne.symm hy), hbefore, hsems,
      update_of_ne hy]

/-- `value++` is what the semaphore was taken for already. -/
theorem Kernel.add_atomic (ha : s.running = a) (hp : s.place a = .vAdd x oldLevel) (y : ℕ) :
    (s.add a x oldLevel).semaphore y = s.semaphore y := by
  have hrun : (s.add a x oldLevel).running = a := ha
  have hplace : (s.add a x oldLevel).place a = .vDone x oldLevel := update_self ..
  rw [semaphore_of_ne hrun (by simp [hplace]), semaphore_of_vAdd ha hp]
  by_cases hy : x = y
  · subst hy
    rw [if_pos rfl]
    exact update_self ..
  · rw [if_neg hy]
    exact update_of_ne (Ne.symm hy) ..

/-- A step that touches no semaphore is not taken between `Remove` and `value++`. -/
theorem SameSems.atomic (h : SameSems s s') (hE : Exclusion s)
    (hno : ∀ y oldLevel, s.place s.running ≠ .vAdd y oldLevel) :
    s'.semaphore x = s.semaphore x := by
  have hnone : ∀ y oldLevel, s'.place s'.running ≠ .vAdd y oldLevel := fun y oldLevel hp =>
    hE.no_vAdd rfl hno s'.running y oldLevel (h.vAdd s'.running y oldLevel hp)
  rw [semaphore_of_ne rfl hno, semaphore_of_ne rfl hnone, h.sems]

/-- **A step of the kernel is one pass of a `P`, a `V`, or nothing**, on every semaphore. -/
theorem KernelStep.atomic (hE : Exclusion s) (hQ : Queues s) (hst : KernelStep s e s') (x : ℕ) :
    match e.op x with
    | some o => SemStep (s.semaphore x) o (s'.semaphore x)
    | none => s'.semaphore x = s.semaphore x := by
  obtain ⟨hen, hnext⟩ := id hst
  cases e with
  | test t y oldLevel woken =>
    obtain ⟨ha, hp⟩ := hen
    obtain ⟨hself, hother, -⟩ := test_atomic ha hp
    rw [hnext]
    by_cases hy : y = x
    · subst hy
      simp only [Event.op, if_true]
      refine ⟨fun hm => ?_, hself⟩
      -- who tests the value is not on the queue
      rw [semaphore_of_ne ha (by simp [hp])] at hm
      obtain ⟨-, l, hq⟩ := hQ.queued y t hm
      rcases hq with hq | hq <;> rw [hp] at hq <;> cases hq
    · simp only [Event.op, if_neg hy]
      exact hother x (Ne.symm hy)
  | remove a y oldLevel =>
    obtain ⟨hself, hother⟩ := remove_atomic hen.1 hen.2
    rw [hnext]
    by_cases hy : y = x
    · subst hy
      simp only [Event.op, if_true]
      exact hself
    · simp only [Event.op, if_neg hy]
      exact hother x (Ne.symm hy)
  | add a y oldLevel =>
    rw [hnext]
    exact add_atomic hen.1 hen.2 x
  | _ =>
    -- another step, so nobody is at `value++`
    have hno : ∀ y l, s.place s.running ≠ .vAdd y l := by
      intro y l hp
      obtain ⟨a, he⟩ := Event.eq_add hen hp
      cases he
    exact (KernelStep.sameSems hst (by simp)).atomic hE hno

/-- **Every run of the kernel is a run of atomic `P`s and `V`s** on each of its semaphores: the
operations are those of the steps of the run, in their order, and a pass of `P` lets the thread out
of its loop, or sends it to sleep, as `tryP` says. -/
theorem kernel_semaphores_atomic {initialValue : ℕ → BitVec 32} {s₀ : Kernel} {es : List Event}
    (h₀ : KernelInit initialValue s₀) (h : Run KernelStep s₀ es s) (x : ℕ) :
    Run SemStep ⟨initialValue x, []⟩ (es.filterMap (Event.op x)) (s.semaphore x) ∧
    ∀ t oldLevel woken s', KernelStep s (.test t x oldLevel woken) s' →
      s'.place (some t) =
        if ((s.semaphore x).tryP t).1 then .pDone x oldLevel else .pSleep x oldLevel := by
  have hstart : s₀.semaphore x = ⟨initialValue x, []⟩ := by
    obtain ⟨level, rfl⟩ := h₀
    rfl
  refine ⟨?_, ?_⟩
  · have hatomic : ∀ s e s', KernelReach initialValue s → KernelStep s e s' →
        match e.op x with
        | some o => SemStep (s.semaphore x) o (s'.semaphore x)
        | none => s'.semaphore x = s.semaphore x :=
      fun s e s' hr hst => hst.atomic hr.both.1 hr.both.2 x
    rw [← hstart]
    refine h.project (fun s => s.semaphore x) (Event.op x) (I := KernelReach initialValue)
      (fun s e s' hr hst => hr.step e hst) (fun s e s' o hr hst hop => ?_)
      (fun s e s' hr hst hop => ?_) (.init h₀)
    · simpa only [hop] using hatomic s e s' hr hst
    · simpa only [hop] using hatomic s e s' hr hst
  · rintro t oldLevel woken s' ⟨⟨ha, hp⟩, rfl⟩
    exact (test_atomic ha hp).2.2

/-- Two threads find the value 0 and wait, and one `V` is made. -/
theorem kernel_semaphores_atomic_twoWaiters : ∃ s : Kernel, (s.sems 0).queue = [2] ∧
    Run SemStep ⟨0, []⟩ [.P 1, .P 2, .V] (s.semaphore 0) := by
  obtain ⟨s, hrun, hq⟩ : ∃ s, Run KernelStep allZero twoWaiters s ∧
      (s.sems 0).queue = [2] :=
    Run.exists_run (fun _ _ _ => Event.exec_step) twoWaiters (by decide +kernel)
  have hinit : KernelInit (fun _ => 0) allZero := ⟨.IntOff, rfl⟩
  exact ⟨s, hq, (kernel_semaphores_atomic hinit hrun 0).1⟩

end semaphore

end Nachos
