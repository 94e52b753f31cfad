import Nachos.Threads.Semaphore
import Nachos.Userprog.Syscall

/-!
# The count of a user semaphore

`Nachos_SemCreate` gives the number in `r4` to a new semaphore, whatever it is, and `Nachos_SemWait`
and `Nachos_SemSignal` are `P` and `V` on it.  `P` waits while `value == 0`: below 0 it does not
wait.

* `nachosSemCreate_run`: the new semaphore, and the number under which the user finds it.
* `semCreate_counts_iff`: the semaphore keeps to its count exactly when it does not start below 0,
  in the runs in which the units fit an `int`.
-/

namespace Nachos

open Kernel Function

variable {c : Sizes}

/-! ### `SemCreate` -/

/-- The number that `registerSem` returns is -1, or that of the semaphore. -/
theorem NachosSems.registerSem_cases (t : NachosSems) (sem : ℕ) :
    (t.registerSem sem).1 = -1 ∨
      (BitVec.ofInt 32 (t.registerSem sem).1).toInt = (t.registerSem sem).1 ∧
      (t.registerSem sem).2.getNachosPointer (t.registerSem sem).1 = .ok (some sem) := by
  unfold NachosSems.registerSem
  split
  · rename_i free openSemsMap hf
    refine Or.inr ⟨BitVec.toInt_ofInt_eq_self (by decide) ?_ ?_, ?_⟩
    · omega
    · have hlt : (free : ℕ) < 6 := free.isLt
      dsimp only
      omega
    · simp only [NachosSems.getNachosPointer, NachosSems.place, subscript_fin]
      exact congrArg Except.ok (update_self ..)
  · exact Or.inl rfl

/-- `Nachos_SemCreate` returns; `numSemaphores` is the new semaphore. -/
theorem nachosSemCreate_run (k : SysState c) :
    ∃ k', nachosSemCreate k = .ok ((), k') ∧
      k'.semaphores k.numSemaphores = ⟨k.registers 4, []⟩ ∧
      (k'.registers 2 = -1 ∨
        k'.mySems.getNachosPointer (k'.registers 2).toInt = .ok (some k.numSemaphores)) := by
  refine ⟨{ k with
    registers := update k.registers 2
      (.ofInt 32 (k.mySems.registerSem k.numSemaphores).1)
    mySems := (k.mySems.registerSem k.numSemaphores).2
    semaphores := update k.semaphores k.numSemaphores ⟨k.registers 4, []⟩
    numSemaphores := k.numSemaphores + 1 }, rfl, update_self .., ?_⟩
  dsimp only
  rw [update_self]
  rcases k.mySems.registerSem_cases k.numSemaphores with h | ⟨hint, hfound⟩
  · exact Or.inl (by rw [h]; rfl)
  · exact Or.inr (by rw [hint]; exact hfound)

/-! ### The count -/

/-- No more `P`s than units: those it started with, and one for each `V`. -/
def KeepsCount (initval : ℤ) (x : ℕ) (s : Kernel) : Prop :=
  (s.completedP x : ℤ) ≤ max initval 0 + s.completedV x ∧ 0 ≤ (s.sems x).value.toInt
  deriving Decidable

/-- **A user semaphore keeps to its count exactly when it starts at 0 or above.**  The runs are
those of any number of threads that call `P` and `V` on it and on other semaphores, as long as it
has no more units than an `int` can count. -/
theorem semCreate_counts_iff (k : SysState c) :
    ∃ k', nachosSemCreate k = .ok ((), k') ∧
      (k'.registers 2 = -1 ∨
        k'.mySems.getNachosPointer (k'.registers 2).toInt = .ok (some k.numSemaphores)) ∧
      ((∀ (initialValue : ℕ → BitVec 32) (s : Kernel),
          initialValue k.numSemaphores = (k'.semaphores k.numSemaphores).value →
          FitReach initialValue k.numSemaphores s →
            KeepsCount (k.registers 4).toInt k.numSemaphores s) ↔
        0 ≤ (k.registers 4).toInt) := by
  obtain ⟨k', hrun, hsem, hid⟩ := nachosSemCreate_run k
  refine ⟨k', hrun, hid, ?_⟩
  rw [hsem]
  constructor
  · intro h
    -- the semaphore as it is made
    obtain ⟨-, hnonneg⟩ := h (fun _ => k.registers 4) _ rfl (.init ⟨.IntOn, rfl⟩)
    exact hnonneg
  · intro h0 initialValue s hv hr
    obtain ⟨hcount, hnonneg, -, -⟩ := hr.counting (by rw [hv]; exact h0)
    refine ⟨?_, hnonneg⟩
    rw [Kernel.units, hv] at hcount
    rw [max_eq_left h0]
    dsimp only at hcount
    omega

/-- With initial value -1 the first `SemWait` returns, though nobody has signalled.  With `INT_MAX`
one `SemSignal` makes the value negative. -/
theorem negative_semaphore_passes :
    (∃ s, KernelReach (fun _ => -1) s ∧ s.completedP 0 = 1 ∧ s.completedV 0 = 0 ∧
      (s.sems 0).value = -2 ∧ ¬ KeepsCount (-1) 0 s) ∧
    ∃ s, KernelReach (fun _ => 2147483647) s ∧ s.completedP 0 = 0 ∧ s.completedV 0 = 1 ∧
      ¬ KeepsCount 2147483647 0 s :=
  ⟨Transition.Reach.exists_run (fun _ _ _ => Event.exec_step)
    (.init (⟨.IntOn, rfl⟩ : KernelInit (fun _ => -1) _))
    [.callP 0 0, .test 0 0 .IntOn false] (by decide +kernel),
  Transition.Reach.exists_run (fun _ _ _ => Event.exec_step)
    (.init (⟨.IntOn, rfl⟩ : KernelInit (fun _ => 2147483647) _))
    [.callV (some 0) 0, .remove (some 0) 0 .IntOn, .add (some 0) 0 .IntOn] (by decide +kernel)⟩

end Nachos
