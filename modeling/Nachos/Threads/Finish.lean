import Nachos.Threads.Scheduler

/-!
# Finished threads

`Thread::Finish` leaves its thread in `threadToBeDestroyed`, and the thread that comes back from
`SWITCH` next deletes it.  A thread that is switched to for the first time starts in `ThreadRoot`
instead and deletes nothing; if it finishes before any other thread has come back from `SWITCH`, it
overwrites `threadToBeDestroyed`, and the thread that was there is never deleted.
-/

namespace Nachos

open Function Transition

/-- A step in which `Finish` is called only after a thread has come back from `SWITCH` since the
`Finish` before. -/
def FinishStep (s : Sched) (o : Operation) (s' : Sched) : Prop :=
  SchedStep s o s' ∧ ((∃ interrupts, o = .finish interrupts) → s.resumed = true)

/-- The states of the runs that consist of such steps. -/
def FinishReach (s : Sched) : Prop := Reach SchedInit FinishStep s

/-- A carcass waits until a thread comes back from `SWITCH`; and as long as no `Finish` has found
one, the finished threads are deleted or about to be. -/
structure Buried (s : Sched) : Prop where
  awaiting : s.resumed = true ↔ s.threadToBeDestroyed = none
  kept : (∀ d ∈ s.found, d = none) → ∀ t, s.code t = .finished →
    t ∈ s.deleted ∨ s.threadToBeDestroyed = some t

section

variable {s s' : Sched}

theorem Buried.frame (h : Buried s) (hd : s'.threadToBeDestroyed = s.threadToBeDestroyed)
    (hr : s'.resumed = s.resumed) (hf : s'.found = s.found) (hdel : s'.deleted = s.deleted)
    (hcode : ∀ t, s'.code t = .finished → s.code t = .finished) : Buried s' where
  awaiting := by rw [hd, hr]; exact h.awaiting
  kept hnone t ht := by
    rw [hf] at hnone
    rw [hd, hdel]
    exact h.kept hnone t (hcode t ht)

theorem Buried.listsOnly (h : Buried s) (hl : Sched.ListsOnly s s') : Buried s' :=
  h.frame hl.threadToBeDestroyed hl.resumed hl.found hl.deleted (by rw [hl.code]; exact fun _ => id)

/-- A thread that goes on has not finished. -/
theorem code_goto_finished {t u : ℕ} {p : Code} (hp : p ≠ .finished)
    (h : update s.code t p u = .finished) : s.code u = .finished := by
  by_cases hu : u = t
  · subst hu
    rw [update_self] at h
    exact absurd h hp
  · rwa [update_of_ne hu] at h

theorem Buried.goto (h : Buried s) (t : ℕ) {p : Code} (hp : p ≠ .finished) : Buried (s.goto t p) :=
  h.frame rfl rfl rfl rfl fun _ => code_goto_finished hp

/-- After `SWITCH` the carcass is deleted. -/
theorem Buried.resume (h : Buried s) : Buried s.resume where
  awaiting := by simp [Sched.resume]
  kept hnone t ht := by
    refine Or.inl (List.mem_append.2 ((h.kept hnone t ht).imp_right fun hd => ?_))
    simp [hd]

theorem Buried.run (h : Buried s) (n : ℕ) : Buried (s.run n) := by
  have h1 : Buried { s.setStatus n .RUNNING with
      currentThread := n
      runLevels := s.runLevels ++ [s.level] } := { h with }
  unfold Sched.run
  dsimp only
  split
  · exact { h1.goto n (p := .outside) (by simp) with }
  · exact { h1.resume.goto n (p := .outside) (by simp) with }
  · exact h1.resume

variable {interrupts : List (List ℕ)}

theorem Buried.sleepLoop (h : Buried s) (hs : s.sleepLoop interrupts = some s') : Buried s' := by
  obtain ⟨xs, n, rest, -, -, rfl⟩ := Sched.sleepLoop_cases hs
  have h1 := h.listsOnly (Sched.handlers_listsOnly xs s)
  have h2 : Buried { s.handlers xs with readyList := rest } := { h1 with }
  exact h2.run n

theorem Buried.testP {x : ℕ} {oldLevel : IntStatus} (h : Buried s)
    (ht : s.testP x oldLevel interrupts = some s') : Buried s' := by
  unfold Sched.testP at ht
  dsimp only at ht
  split_ifs at ht with hv
  · refine Buried.sleepLoop ?_ ht
    exact h.frame rfl rfl rfl rfl fun _ => code_goto_finished (by simp)
  · cases ht
    exact h.frame rfl rfl rfl rfl fun _ => code_goto_finished (by simp)

/-- The running thread takes the place of a carcass that is gone. -/
theorem Buried.finish (h : Buried s) (hf : s.finish interrupts = some s') : Buried s' := by
  refine Buried.sleepLoop ?_ hf
  refine ⟨by simp, fun hnone t ht => ?_⟩
  by_cases htc : t = s.currentThread
  · exact Or.inr (by rw [htc]; rfl)
  · have hfin : s.code t = .finished := by
      rw [← ht]
      exact (update_of_ne htc ..).symm
    have hlast : s.threadToBeDestroyed = none :=
      hnone _ (List.mem_append_right _ List.mem_cons_self)
    have hkept := h.kept (fun d hd => hnone d (List.mem_append_left _ hd)) t hfin
    refine Or.inl (hkept.resolve_right ?_)
    simp [hlast]

theorem Buried.step {o : Operation} (h : Buried s) (hst : SchedStep s o s') : Buried s' := by
  obtain ⟨-, hnext⟩ := hst
  cases o with
  | fork u =>
    cases hnext
    exact { h.goto u (p := .threadRoot) (by simp) with }
  | yield =>
    cases hnext
    unfold Sched.yield
    split
    · exact h
    · refine Buried.run ?_ _
      exact h.frame rfl rfl rfl rfl fun _ => code_goto_finished (by simp)
  | semP x interrupts =>
    have h1 : Buried { s with level := .IntOff } := { h with }
    exact h1.testP hnext
  | retest x oldLevel interrupts => exact h.testP hnext
  | semV x =>
    cases hnext
    exact h.listsOnly (Sched.semV_listsOnly x s)
  | destroy x =>
    cases hnext
    exact h.listsOnly (Sched.destroy_listsOnly x s)
  | finish interrupts => exact h.finish hnext
  | setLevel now =>
    cases hnext
    exact { h with }
  | interrupt xs =>
    cases hnext
    exact h.listsOnly (Sched.handlers_listsOnly xs s)

theorem SchedReach.buried (h : SchedReach s) : Buried s := by
  refine Reach.invariant (I := Buried) ?_ (fun _ _ _ hs hst => hs.step hst) h
  rintro s ⟨level, initialValue, rfl⟩
  refine ⟨by simp, fun _ t ht => ?_⟩
  by_cases h0 : t = 0 <;> simp [h0] at ht

theorem Sched.run_found (n : ℕ) (s : Sched) : (s.run n).found = s.found := by
  unfold Sched.run
  dsimp only [Sched.setStatus]
  split <;> rfl

theorem Sched.sleepLoop_found (hs : s.sleepLoop interrupts = some s') : s'.found = s.found := by
  obtain ⟨xs, n, rest, -, -, rfl⟩ := Sched.sleepLoop_cases hs
  rw [Sched.run_found]
  exact (Sched.handlers_listsOnly xs s).found

theorem Sched.testP_found {x : ℕ} {oldLevel : IntStatus}
    (ht : s.testP x oldLevel interrupts = some s') : s'.found = s.found := by
  unfold Sched.testP at ht
  dsimp only at ht
  split_ifs at ht with hv
  · have hf := Sched.sleepLoop_found ht
    exact hf
  · cases ht
    rfl

/-- Only `Finish` looks at `threadToBeDestroyed` before it overwrites it. -/
theorem SchedStep.found {o : Operation} (hst : SchedStep s o s') :
    s'.found = s.found ∨
      (∃ interrupts, o = .finish interrupts) ∧ s'.found = s.found ++ [s.threadToBeDestroyed] := by
  obtain ⟨-, hnext⟩ := hst
  cases o with
  | fork u | setLevel now =>
    cases hnext
    exact Or.inl rfl
  | yield =>
    cases hnext
    refine Or.inl ?_
    unfold Sched.yield
    split
    · rfl
    · rw [Sched.run_found]
      rfl
  | semP x interrupts =>
    have hf := Sched.testP_found (s := { s with level := .IntOff }) hnext
    exact Or.inl hf
  | retest x oldLevel interrupts => exact Or.inl (Sched.testP_found hnext)
  | semV x =>
    cases hnext
    exact Or.inl (Sched.semV_listsOnly x s).found
  | destroy x =>
    cases hnext
    exact Or.inl (Sched.destroy_listsOnly x s).found
  | finish interrupts =>
    refine Or.inr ⟨⟨interrupts, rfl⟩, ?_⟩
    exact Sched.sleepLoop_found hnext
  | interrupt xs =>
    cases hnext
    exact Or.inl (Sched.handlers_listsOnly xs s).found

theorem FinishReach.reach (h : FinishReach s) : SchedReach s :=
  Reach.mono (fun _ _ _ hst => hst.1) h

theorem FinishReach.found_none (h : FinishReach s) : ∀ d ∈ s.found, d = none := by
  induction h with
  | init hi =>
    obtain ⟨level, initialValue, rfl⟩ := hi
    simp
  | @step s s' o hr hst ih =>
    obtain ⟨hst, hsafe⟩ := hst
    rcases hst.found with hf | ⟨hfin, hf⟩
    · rw [hf]
      exact ih
    · rw [hf]
      intro d hd
      rcases List.mem_append.1 hd with h1 | h1
      · exact ih d h1
      · rw [List.mem_singleton.1 h1]
        exact (FinishReach.reach hr).buried.awaiting.1 (hsafe hfin)

end

/-- **No finished thread is forgotten**, in the runs in which between two calls of `Finish` some
thread comes back from `SWITCH`: every `Finish` finds `threadToBeDestroyed` empty, a finished thread
has been deleted or is the one in `threadToBeDestroyed`, and it is deleted when the next thread
comes back from `SWITCH`.  In any other run the first `Finish` that does not meet the condition
finds the thread that finished before it. -/
theorem no_thread_forgotten (s : Sched) :
    (FinishReach s →
      (∀ d ∈ s.found, d = none) ∧
      (∀ t, s.code t = .finished → t ∈ s.deleted ∨ s.threadToBeDestroyed = some t) ∧
      (s.resumed = true → ∀ t, s.code t = .finished → t ∈ s.deleted) ∧
      (∀ t u, s.code t = .finished → s.code u = .finished → t ∉ s.deleted → u ∉ s.deleted →
        t = u)) ∧
    (SchedReach s → (s.threadToBeDestroyed = none ↔ s.resumed = true)) := by
  refine ⟨fun h => ?_, fun h => h.buried.awaiting.symm⟩
  have hb := h.reach.buried
  have hkept := hb.kept h.found_none
  refine ⟨h.found_none, hkept, fun hr t ht => ?_, fun t u ht hu htd hud => ?_⟩
  · refine (hkept t ht).resolve_right ?_
    rw [hb.awaiting.1 hr]
    simp
  · have h1 := (hkept t ht).resolve_left htd
    have h2 := (hkept u hu).resolve_left hud
    rw [h1] at h2
    exact Option.some.inj h2

/-- The steps of a run as above. -/
def Operation.execFinish (s : Sched) (o : Operation) : Option Sched :=
  match o with
  | .finish _ => if s.resumed = true then o.exec s else none
  | _ => o.exec s

theorem Operation.execFinish_step {s s' : Sched} {o : Operation} (h : o.execFinish s = some s') :
    FinishStep s o s' := by
  unfold Operation.execFinish at h
  split at h
  · split_ifs at h with hr
    exact ⟨Operation.exec_step h, fun _ => hr⟩
  · rename_i hno
    exact ⟨Operation.exec_step h, fun ⟨interrupts, he⟩ => absurd he (hno interrupts)⟩

/-- The main thread finishes after its child has finished. -/
theorem no_thread_forgotten_oneChild :
    ∃ s, FinishReach s ∧ s.currentThread = 2 ∧ s.found.length = 2 ∧ (∀ d ∈ s.found, d = none) ∧
      1 ∈ s.deleted ∧ s.threadToBeDestroyed = some 0 := by
  obtain ⟨s, hr, h0, h1, h2, h3⟩ : ∃ s, FinishReach s ∧ s.currentThread = 2 ∧ s.found.length = 2 ∧
      1 ∈ s.deleted ∧ s.threadToBeDestroyed = some 0 :=
    Reach.exists_run (fun _ _ _ => Operation.execFinish_step) (.init mainThread_init)
      [.fork 1, .yield, .finish [], .fork 2, .finish []] (by decide +kernel)
  exact ⟨s, hr, h0, h1, ((no_thread_forgotten s).1 hr).1, h2, h3⟩

/-- The main thread forks two threads and finishes; the first of them finishes as soon as it
runs.  Its `Finish` finds the main thread, which nobody will delete. -/
theorem main_thread_forgotten :
    ∃ s, SchedReach s ∧ s.found = [none, some 0] ∧ s.code 0 = .finished ∧ s.code 1 = .finished ∧
      s.deleted = [] ∧ s.threadToBeDestroyed = some 1 :=
  Reach.exists_run (fun _ _ _ => Operation.exec_step) (.init mainThread_init)
    [.fork 1, .fork 2, .finish [], .finish []] (by decide +kernel)

end Nachos
