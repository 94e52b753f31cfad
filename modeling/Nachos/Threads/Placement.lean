import Nachos.Threads.Scheduler

/-!
# Where the threads are

Between two steps every thread that has been forked and has not finished runs, or is once on the
ready list, or is once on the queue of one semaphore, with the status that says so.

* `Placed cpu limbo` is the invariant in the middle of a step: `cpu` is the thread that has the
  processor, if any, and `limbo` are the threads that were taken from a list and not yet put on
  another one.
* Every function of the scheduler moves threads between the processor, limbo and the lists; there
  is one lemma for each of these moves.
-/

namespace Nachos

open Function Transition

/-- The code of a thread that has the processor. -/
def Code.OnCpu (p : Code) : Prop := p = .outside ∨ ∃ x l, p = .inP x l

/-- The code of a thread that `Run` may switch to. -/
def Code.SwitchedOut (p : Code) : Prop :=
  p = .threadRoot ∨ (∃ l, p = .inYield l) ∨ ∃ x l, p = .inP x l

/-- A thread on no list. -/
def Sched.Unlisted (s : Sched) (t : ℕ) : Prop := t ∉ s.readyList ∧ ∀ x, t ∉ (s.sems x).queue

/-- Every thread is in one place. -/
structure Placed (cpu : Option ℕ) (limbo : List ℕ) (s : Sched) : Prop where
  running : ∀ t, cpu = some t → s.status t = .RUNNING ∧ (s.code t).OnCpu ∧ s.Unlisted t
  ready : ∀ t ∈ s.readyList, s.status t = .READY ∧ (s.code t).SwitchedOut ∧
    ∀ x, t ∉ (s.sems x).queue
  readyOnce : s.readyList.Nodup
  queued : ∀ x, ∀ t ∈ (s.sems x).queue, s.status t = .BLOCKED ∧ ∃ l, s.code t = .inP x l
  queuedOnce : ∀ x, (s.sems x).queue.Nodup
  moved : ∀ t ∈ limbo, cpu ≠ some t ∧ (s.code t).SwitchedOut ∧ s.Unlisted t
  movedOnce : limbo.Nodup
  everyone : ∀ t, s.code t ≠ .unborn → s.code t ≠ .finished →
    cpu = some t ∨ t ∈ s.readyList ∨ (∃ x, t ∈ (s.sems x).queue) ∨ t ∈ limbo

variable {interrupts : List (List ℕ)}

section moves

variable {s s' : Sched} {cpu : Option ℕ} {limbo : List ℕ} {t n x : ℕ}

/-- Nobody is in two queues. -/
theorem Placed.queue_unique (h : Placed cpu limbo s) {y : ℕ} (hx : t ∈ (s.sems x).queue)
    (hy : t ∈ (s.sems y).queue) : y = x := by
  obtain ⟨-, l, hl⟩ := h.queued x t hx
  obtain ⟨-, m, hm⟩ := h.queued y t hy
  rw [hl] at hm
  cases hm
  rfl

/-- From limbo to the ready list. -/
theorem Placed.readyToRun (h : Placed cpu (t :: limbo) s) : Placed cpu limbo (s.readyToRun t) := by
  obtain ⟨hcpu, hcode, hfree⟩ := h.moved t List.mem_cons_self
  obtain ⟨htl, hl⟩ := List.nodup_cons.1 h.movedOnce
  have hst : ∀ u, u ≠ t → (s.readyToRun t).status u = s.status u := fun u hu =>
    update_of_ne hu ..
  have hself : (s.readyToRun t).status t = .READY := update_self ..
  have hlist : ∀ u, u ∈ (s.readyToRun t).readyList ↔ u ∈ s.readyList ∨ u = t := by
    intro u
    simp
  refine ⟨?_, ?_, ?_, ?_, h.queuedOnce, ?_, hl, ?_⟩
  · intro u hu
    obtain ⟨h1, h2, h3, h4⟩ := h.running u hu
    have hut : u ≠ t := by
      rintro rfl
      exact hcpu hu
    refine ⟨by rw [hst u hut, h1], h2, ?_, h4⟩
    rw [hlist]
    rintro (h5 | h5)
    · exact h3 h5
    · exact hut h5
  · intro u hu
    rcases (hlist u).1 hu with h1 | rfl
    · have hut : u ≠ t := by
        rintro rfl
        exact hfree.1 h1
      rw [hst u hut]
      exact h.ready u h1
    · exact ⟨hself, hcode, hfree.2⟩
  · exact List.nodup_append.2 ⟨h.readyOnce, by simp, by
      rintro a ha b hb rfl
      exact hfree.1 (List.mem_singleton.1 hb ▸ ha)⟩
  · intro y u hu
    have hut : u ≠ t := by
      rintro rfl
      exact hfree.2 y hu
    rw [hst u hut]
    exact h.queued y u hu
  · intro u hu
    obtain ⟨h1, h2, h3, h4⟩ := h.moved u (List.mem_cons_of_mem _ hu)
    refine ⟨h1, h2, ?_, h4⟩
    rw [hlist]
    rintro (h5 | rfl)
    · exact h3 h5
    · exact htl hu
  · intro u h1 h2
    rcases h.everyone u h1 h2 with h3 | h3 | h3 | h3
    · exact Or.inl h3
    · exact Or.inr (Or.inl ((hlist u).2 (Or.inl h3)))
    · exact Or.inr (Or.inr (Or.inl h3))
    · rcases List.mem_cons.1 h3 with rfl | h4
      · exact Or.inr (Or.inl ((hlist u).2 (Or.inr rfl)))
      · exact Or.inr (Or.inr (Or.inr h4))

/-- From the ready list to limbo: `FindNextToRun`. -/
theorem Placed.findNextToRun {rest : List ℕ} (h : Placed cpu limbo s)
    (hr : s.readyList = n :: rest) : Placed cpu (n :: limbo) { s with readyList := rest } := by
  have hnd := h.readyOnce
  rw [hr] at hnd
  obtain ⟨hn, hnd⟩ := List.nodup_cons.1 hnd
  have hmem : ∀ u, u ∈ s.readyList ↔ u = n ∨ u ∈ rest := fun u => by rw [hr, List.mem_cons]
  obtain ⟨-, hcode, hq⟩ := h.ready n ((hmem n).2 (Or.inl rfl))
  refine ⟨?_, ?_, hnd, h.queued, h.queuedOnce, ?_, ?_, ?_⟩
  · intro u hu
    obtain ⟨h1, h2, h3, h4⟩ := h.running u hu
    exact ⟨h1, h2, fun h5 => h3 ((hmem u).2 (Or.inr h5)), h4⟩
  · intro u hu
    exact h.ready u ((hmem u).2 (Or.inr hu))
  · intro u hu
    rcases List.mem_cons.1 hu with rfl | hu
    · refine ⟨fun h1 => ?_, hcode, hn, hq⟩
      exact (h.running u h1).2.2.1 ((hmem u).2 (Or.inl rfl))
    · obtain ⟨h1, h2, h3, h4⟩ := h.moved u hu
      exact ⟨h1, h2, fun h5 => h3 ((hmem u).2 (Or.inr h5)), h4⟩
  · refine List.nodup_cons.2 ⟨fun hu => ?_, h.movedOnce⟩
    exact (h.moved n hu).2.2.1 ((hmem n).2 (Or.inl rfl))
  · intro u h1 h2
    rcases h.everyone u h1 h2 with h3 | h3 | h3 | h3
    · exact Or.inl h3
    · rcases (hmem u).1 h3 with rfl | h4
      · exact Or.inr (Or.inr (Or.inr List.mem_cons_self))
      · exact Or.inr (Or.inl h4)
    · exact Or.inr (Or.inr (Or.inl h3))
    · exact Or.inr (Or.inr (Or.inr (List.mem_cons_of_mem _ h3)))

/-- From the front of a queue to limbo; the value does not matter. -/
theorem Placed.dequeue {front queue : List ℕ} (h : Placed cpu [] s)
    (hq : (s.sems x).queue = front ++ queue) (value : BitVec 32) :
    Placed cpu front (s.setSem x ⟨value, queue⟩) := by
  have hnd := h.queuedOnce x
  rw [hq] at hnd
  obtain ⟨hnf, hnq, hdisj⟩ := List.nodup_append.1 hnd
  have hother : ∀ y, y ≠ x → (s.setSem x ⟨value, queue⟩).sems y = s.sems y := fun y hy =>
    update_of_ne hy ..
  have hself : ((s.setSem x ⟨value, queue⟩).sems x).queue = queue := by
    simp
  have hsub : ∀ y u, u ∈ ((s.setSem x ⟨value, queue⟩).sems y).queue → u ∈ (s.sems y).queue := by
    intro y u hu
    by_cases hy : y = x
    · subst hy
      rw [hself] at hu
      rw [hq]
      exact List.mem_append_right _ hu
    · rwa [hother y hy] at hu
  refine ⟨?_, ?_, h.readyOnce, ?_, ?_, ?_, hnf, ?_⟩
  · intro u hu
    obtain ⟨h1, h2, h3, h4⟩ := h.running u hu
    exact ⟨h1, h2, h3, fun y hy => h4 y (hsub y u hy)⟩
  · intro u hu
    obtain ⟨h1, h2, h3⟩ := h.ready u hu
    exact ⟨h1, h2, fun y hy => h3 y (hsub y u hy)⟩
  · intro y u hu
    exact h.queued y u (hsub y u hu)
  · intro y
    by_cases hy : y = x
    · rw [hy, hself]
      exact hnq
    · rw [hother y hy]
      exact h.queuedOnce y
  · intro u hu
    have hux : u ∈ (s.sems x).queue := by
      rw [hq]
      exact List.mem_append_left _ hu
    obtain ⟨-, l, hl⟩ := h.queued x u hux
    refine ⟨fun h1 => (h.running u h1).2.2.2 x hux, Or.inr (Or.inr ⟨x, l, hl⟩),
      fun h1 => (h.ready u h1).2.2 x hux, fun y hy => ?_⟩
    have hyx : y = x := h.queue_unique hux (hsub y u hy)
    subst hyx
    rw [hself] at hy
    exact hdisj u hu u hy rfl
  · intro u h1 h2
    rcases h.everyone u h1 h2 with h3 | h3 | ⟨y, h3⟩ | h3
    · exact Or.inl h3
    · exact Or.inr (Or.inl h3)
    · by_cases hy : y = x
      · subst hy
        rw [hq] at h3
        rcases List.mem_append.1 h3 with h4 | h4
        · exact Or.inr (Or.inr (Or.inr h4))
        · exact Or.inr (Or.inr (Or.inl ⟨y, by rw [hself]; exact h4⟩))
      · exact Or.inr (Or.inr (Or.inl ⟨y, by rw [hother y hy]; exact h3⟩))
    · exact absurd h3 List.not_mem_nil

/-- A thread on no list changes its code and status, and may get or lose the processor. -/
theorem Placed.reassign {cpu' : Option ℕ} {limbo' : List ℕ} (h : Placed cpu limbo s)
    (ht : s.Unlisted t) (hready : s'.readyList = s.readyList) (hsems : s'.sems = s.sems)
    (hstatus : ∀ u, u ≠ t → s'.status u = s.status u) (hcode : ∀ u, u ≠ t → s'.code u = s.code u)
    (hcpu : ∀ u, u ≠ t → (cpu' = some u ↔ cpu = some u))
    (hlimbo : ∀ u, u ≠ t → (u ∈ limbo' ↔ u ∈ limbo)) (hnodup : limbo'.Nodup)
    (hrun : cpu' = some t → s'.status t = .RUNNING ∧ (s'.code t).OnCpu)
    (hmove : t ∈ limbo' → cpu' ≠ some t ∧ (s'.code t).SwitchedOut)
    (hplace : s'.code t = .unborn ∨ s'.code t = .finished ∨ cpu' = some t ∨ t ∈ limbo') :
    Placed cpu' limbo' s' := by
  have hne : ∀ u, u ∈ s.readyList → u ≠ t := by
    rintro u hu rfl
    exact ht.1 hu
  have hne' : ∀ x u, u ∈ (s.sems x).queue → u ≠ t := by
    rintro x u hu rfl
    exact ht.2 x hu
  have hun : ∀ u, s.Unlisted u → s'.Unlisted u := fun u hu => by
    unfold Sched.Unlisted
    rw [hready, hsems]
    exact hu
  refine ⟨?_, ?_, ?_, ?_, ?_, ?_, hnodup, ?_⟩
  · intro u hu
    by_cases hut : u = t
    · subst hut
      exact ⟨(hrun hu).1, (hrun hu).2, hun u ht⟩
    · obtain ⟨h1, h2, h3⟩ := h.running u ((hcpu u hut).1 hu)
      rw [hstatus u hut, hcode u hut]
      exact ⟨h1, h2, hun u h3⟩
  · intro u hu
    rw [hready] at hu
    rw [hstatus u (hne u hu), hcode u (hne u hu), hsems]
    exact h.ready u hu
  · rw [hready]
    exact h.readyOnce
  · intro y u hu
    rw [hsems] at hu
    rw [hstatus u (hne' y u hu), hcode u (hne' y u hu)]
    exact h.queued y u hu
  · rw [hsems]
    exact h.queuedOnce
  · intro u hu
    by_cases hut : u = t
    · subst hut
      exact ⟨(hmove hu).1, (hmove hu).2, hun u ht⟩
    · obtain ⟨h1, h2, h3⟩ := h.moved u ((hlimbo u hut).1 hu)
      rw [hcode u hut]
      exact ⟨fun h4 => h1 ((hcpu u hut).1 h4), h2, hun u h3⟩
  · intro u h1 h2
    rw [hready, hsems]
    by_cases hut : u = t
    · subst hut
      rcases hplace with h3 | h3 | h3 | h3
      · exact absurd h3 h1
      · exact absurd h3 h2
      · exact Or.inl h3
      · exact Or.inr (Or.inr (Or.inr h3))
    · rw [hcode u hut] at h1 h2
      rw [hcpu u hut, hlimbo u hut]
      exact h.everyone u h1 h2

/-- The running thread goes on. -/
theorem Placed.goOn (h : Placed (some t) [] s) {p : Code} (hp : p.OnCpu) :
    Placed (some t) [] (s.goto t p) := by
  obtain ⟨hst, -, hun⟩ := h.running t rfl
  refine h.reassign hun rfl rfl (fun _ _ => rfl) (fun u hu => update_of_ne hu ..)
    (fun _ _ => Iff.rfl) (fun _ _ => Iff.rfl) h.movedOnce (fun _ => ⟨hst, ?_⟩) (by simp)
    (Or.inr (Or.inr (Or.inl rfl)))
  simpa using hp

/-- From the processor to limbo. -/
theorem Placed.switchOut (h : Placed (some t) limbo s) {p : Code} (hp : p.SwitchedOut) :
    Placed none (t :: limbo) (s.goto t p) := by
  obtain ⟨-, -, hun⟩ := h.running t rfl
  have ht : t ∉ limbo := fun hl => (h.moved t hl).1 rfl
  refine h.reassign hun rfl rfl (fun _ _ => rfl) (fun u hu => update_of_ne hu ..)
    ?_ ?_ (List.nodup_cons.2 ⟨ht, h.movedOnce⟩) (by simp) ?_
    (Or.inr (Or.inr (Or.inr List.mem_cons_self)))
  · intro u hu
    simp [Ne.symm hu]
  · intro u hu
    simp [hu]
  · intro _
    exact ⟨by simp, by simpa using hp⟩

/-- A new thread is put into limbo. -/
theorem Placed.create (h : Placed cpu [] s) (ht : s.code t = .unborn) :
    Placed cpu [t] (s.goto t .threadRoot) := by
  have hcpu : cpu ≠ some t := by
    intro hc
    rcases (h.running t hc).2.1 with h1 | ⟨x, l, h1⟩ <;> simp [h1] at ht
  have hun : s.Unlisted t := by
    constructor
    · intro h1
      rcases (h.ready t h1).2.1 with h2 | ⟨l, h2⟩ | ⟨x, l, h2⟩ <;> simp [h2] at ht
    · intro x h1
      obtain ⟨-, l, h2⟩ := h.queued x t h1
      simp [h2] at ht
  refine h.reassign hun rfl rfl (fun _ _ => rfl) (fun u hu => update_of_ne hu ..)
    (fun _ _ => Iff.rfl) ?_ (List.nodup_singleton t) (fun hc => absurd hc hcpu) ?_
    (Or.inr (Or.inr (Or.inr List.mem_cons_self)))
  · intro u hu
    simp [hu]
  · intro _
    exact ⟨hcpu, Or.inl (by simp)⟩

/-- The running thread finishes. -/
theorem Placed.finish (h : Placed (some t) [] s) (st : ThreadStatus) :
    Placed none [] ((s.goto t .finished).setStatus t st) := by
  obtain ⟨-, -, hun⟩ := h.running t rfl
  refine h.reassign hun rfl rfl (fun u hu => update_of_ne hu ..)
    (fun u hu => update_of_ne hu ..) ?_ (fun _ _ => Iff.rfl) h.movedOnce (by simp)
    (by simp)
    (Or.inr (Or.inl (by simp)))
  intro u hu
  simp [Ne.symm hu]

/-- From limbo to the processor: `Run`. -/
theorem Placed.run (h : Placed none [n] s) : Placed (some n) [] (s.run n) := by
  obtain ⟨-, hcode, hun⟩ := h.moved n List.mem_cons_self
  have hcpu : ∀ u, u ≠ n → (some n = some u ↔ (none : Option ℕ) = some u) := fun u hu => by
    simp [Ne.symm hu]
  have hlimbo : ∀ u, u ≠ n → (u ∈ ([] : List ℕ) ↔ u ∈ [n]) := fun u hu => by simp [hu]
  unfold Sched.run
  dsimp only [Sched.setStatus]
  rcases hcode with hc | ⟨l, hc⟩ | ⟨x, l, hc⟩ <;> rw [hc] <;>
    refine h.reassign hun rfl rfl (fun u hu => update_of_ne hu ..) ?_ hcpu hlimbo List.nodup_nil
      (fun _ => ⟨update_self .., ?_⟩) (by simp) (Or.inr (Or.inr (Or.inl rfl)))
  · exact fun u hu => update_of_ne hu ..
  · exact Or.inl (update_self ..)
  · exact fun u hu => update_of_ne hu ..
  · exact Or.inl (update_self ..)
  · exact fun _ _ => rfl
  · exact Or.inr ⟨x, l, hc⟩

/-- From the processor to a queue: `Append` and `Sleep` in `P`. -/
theorem Placed.block (h : Placed (some t) [] s) (x : ℕ) (l : IntStatus) (value : BitVec 32) :
    Placed none [] (((s.setSem x ⟨value, (s.sems x).queue ++ [t]⟩).goto t (.inP x l)).setStatus t
      .BLOCKED) := by
  obtain ⟨-, -, hun⟩ := h.running t rfl
  set s' := ((s.setSem x ⟨value, (s.sems x).queue ++ [t]⟩).goto t (.inP x l)).setStatus t .BLOCKED
    with hs'
  have hstatus : ∀ u, u ≠ t → s'.status u = s.status u := fun u hu => update_of_ne hu ..
  have hcode : ∀ u, u ≠ t → s'.code u = s.code u := fun u hu => update_of_ne hu ..
  have hself : s'.status t = .BLOCKED ∧ s'.code t = .inP x l :=
    ⟨update_self .., update_self ..⟩
  have hqueue : ∀ y u, u ∈ (s'.sems y).queue ↔ u ∈ (s.sems y).queue ∨ (y = x ∧ u = t) := by
    intro y u
    by_cases hy : y = x
    · subst hy
      simp [hs']
    · simp [hs', hy]
  refine ⟨by simp, ?_, h.readyOnce, ?_, ?_, by simp, List.nodup_nil, ?_⟩
  · intro u hu
    have hut : u ≠ t := by
      rintro rfl
      exact hun.1 hu
    obtain ⟨h1, h2, h3⟩ := h.ready u hu
    rw [hstatus u hut, hcode u hut]
    refine ⟨h1, h2, fun y hy => ?_⟩
    rcases (hqueue y u).1 hy with h4 | h4
    · exact h3 y h4
    · exact hut h4.2
  · intro y u hu
    rcases (hqueue y u).1 hu with h1 | ⟨rfl, rfl⟩
    · have hut : u ≠ t := by
        rintro rfl
        exact hun.2 y h1
      rw [hstatus u hut, hcode u hut]
      exact h.queued y u h1
    · exact ⟨hself.1, l, hself.2⟩
  · intro y
    by_cases hy : y = x
    · subst hy
      have hq : (s'.sems y).queue = (s.sems y).queue ++ [t] := by
        simp [hs']
      rw [hq]
      refine List.nodup_append.2 ⟨h.queuedOnce y, List.nodup_singleton t, ?_⟩
      rintro a ha b hb rfl
      exact hun.2 y (List.mem_singleton.1 hb ▸ ha)
    · have hq : s'.sems y = s.sems y := update_of_ne hy ..
      rw [hq]
      exact h.queuedOnce y
  · intro u h1 h2
    by_cases hut : u = t
    · subst hut
      exact Or.inr (Or.inr (Or.inl ⟨x, (hqueue x u).2 (Or.inr ⟨rfl, rfl⟩)⟩))
    · rw [hcode u hut] at h1 h2
      rcases h.everyone u h1 h2 with h3 | h3 | ⟨y, h3⟩ | h3
      · exact absurd (Option.some.inj h3).symm hut
      · exact Or.inr (Or.inl h3)
      · exact Or.inr (Or.inr (Or.inl ⟨y, (hqueue y u).2 (Or.inl h3)⟩))
      · exact absurd h3 List.not_mem_nil

/-! ### The functions of the kernel -/

theorem Placed.freeAll (h : Placed cpu limbo s) : Placed cpu [] (s.freeAll limbo) := by
  induction limbo generalizing s with
  | nil => exact h
  | cons t limbo ih => exact ih h.readyToRun

theorem Placed.semV (h : Placed cpu [] s) (x : ℕ) : Placed cpu [] (s.semV x) := by
  unfold Sched.semV
  split
  · rename_i hq
    exact h.dequeue (by rw [hq]; rfl) _
  · rename_i thread queue hq
    exact (h.dequeue (by rw [hq]; rfl) _).readyToRun

theorem Placed.handlers (h : Placed cpu [] s) (xs : List ℕ) : Placed cpu [] (s.handlers xs) := by
  induction xs generalizing s with
  | nil => exact h
  | cons x xs ih => exact ih (h.semV x)

theorem Placed.destroy (h : Placed cpu [] s) (x : ℕ) : Placed cpu [] (s.destroy x) :=
  (h.dequeue (List.append_nil _).symm _).freeAll

theorem Sched.run_currentThread (n : ℕ) (s : Sched) : (s.run n).currentThread = n := by
  unfold Sched.run
  dsimp only [Sched.setStatus]
  split <;> rfl

theorem Placed.sleepLoop (h : Placed none [] s) (hs : s.sleepLoop interrupts = some s') :
    Placed (some s'.currentThread) [] s' := by
  obtain ⟨xs, n, rest, -, hr, rfl⟩ := Sched.sleepLoop_cases hs
  rw [Sched.run_currentThread]
  exact ((h.handlers xs).findNextToRun hr).run

theorem Placed.testP {oldLevel : IntStatus} (h : Placed (some s.currentThread) [] s)
    (ht : s.testP x oldLevel interrupts = some s') : Placed (some s'.currentThread) [] s' := by
  unfold Sched.testP at ht
  dsimp only at ht
  split_ifs at ht with hv
  · exact (h.block x oldLevel _).sleepLoop ht
  · cases ht
    have h1 := (h.dequeue (x := x) (List.nil_append _).symm ((s.sems x).value - 1)).goOn
      (Or.inl rfl : Code.outside.OnCpu)
    exact { h1 with }

theorem Placed.yield (h : Placed (some s.currentThread) [] s) :
    Placed (some s.yield.currentThread) [] s.yield := by
  unfold Sched.yield
  split
  · exact h
  · rename_i n rest hr
    rw [Sched.run_currentThread]
    have h1 : Placed (some s.currentThread) [n] { s with level := .IntOff, readyList := rest } :=
      { h.findNextToRun hr with }
    exact (h1.switchOut (Or.inr (Or.inl ⟨s.level, rfl⟩))).readyToRun.run

end moves

/-- Every step keeps everyone in place. -/
theorem Placed.step {s s' : Sched} {o : Operation} (h : Placed (some s.currentThread) [] s)
    (hst : SchedStep s o s') : Placed (some s'.currentThread) [] s' := by
  obtain ⟨hen, hnext⟩ := hst
  cases o with
  | fork u =>
    cases hnext
    exact (h.create hen.2).readyToRun
  | yield =>
    cases hnext
    exact h.yield
  | semP x interrupts =>
    have h1 : Placed (some s.currentThread) [] { s with level := .IntOff } := { h with }
    exact h1.testP hnext
  | retest x oldLevel interrupts => exact h.testP hnext
  | semV x =>
    cases hnext
    rw [(Sched.semV_listsOnly x s).currentThread]
    exact h.semV x
  | destroy x =>
    cases hnext
    rw [(Sched.destroy_listsOnly x s).currentThread]
    exact h.destroy x
  | finish interrupts =>
    have h1 := h.finish .BLOCKED
    have h2 : Placed none [] (({ s.goto s.currentThread .finished with
        level := .IntOff
        threadToBeDestroyed := some s.currentThread
        found := s.found ++ [s.threadToBeDestroyed]
        resumed := false } : Sched).setStatus s.currentThread .BLOCKED) := { h1 with }
    exact h2.sleepLoop hnext
  | setLevel now =>
    cases hnext
    exact { h with }
  | interrupt xs =>
    cases hnext
    rw [(Sched.handlers_listsOnly xs s).currentThread]
    exact h.handlers xs

theorem SchedReach.placed {s : Sched} (h : SchedReach s) : Placed (some s.currentThread) [] s := by
  refine Reach.invariant (I := fun s => Placed (some s.currentThread) [] s) ?_
    (fun _ _ _ hs hst => hs.step hst) h
  rintro s ⟨level, initialValue, rfl⟩
  refine ⟨?_, by simp, List.nodup_nil, by simp, fun _ => List.nodup_nil, by simp, List.nodup_nil,
    ?_⟩
  · intro t ht
    cases ht
    exact ⟨rfl, Or.inl rfl, List.not_mem_nil, fun _ => List.not_mem_nil⟩
  · intro t h1 _
    by_cases ht : t = 0
    · exact Or.inl (by rw [ht])
    · simp [ht] at h1

/-! ### Context switches -/

/-- Every `Run` was called with interrupts off, and they are off while the running thread is in
`P`. -/
structure SwitchesOff (s : Sched) : Prop where
  runs : ∀ l ∈ s.runLevels, l = .IntOff
  inP : ∀ x l, s.code s.currentThread = .inP x l → s.level = .IntOff

section switches

variable {s s' : Sched}

theorem Sched.run_runLevels (n : ℕ) (s : Sched) :
    (s.run n).runLevels = s.runLevels ++ [s.level] := by
  unfold Sched.run
  dsimp only [Sched.setStatus]
  split <;> rfl

theorem Sched.run_level (n x : ℕ) (l : IntStatus) (s : Sched)
    (h : (s.run n).code n = .inP x l) : (s.run n).level = s.level := by
  unfold Sched.run at h ⊢
  dsimp only [Sched.setStatus] at h ⊢
  split at h <;> simp_all [Sched.resume]

theorem switchesOff_run (n : ℕ) (hruns : ∀ l ∈ s.runLevels, l = .IntOff)
    (hl : s.level = .IntOff) : SwitchesOff (s.run n) := by
  constructor
  · intro l hmem
    rw [Sched.run_runLevels] at hmem
    rcases List.mem_append.1 hmem with h1 | h1
    · exact hruns l h1
    · rw [List.mem_singleton.1 h1, hl]
  · intro x l hc
    rw [Sched.run_currentThread] at hc
    rw [Sched.run_level n x l s hc, hl]

theorem switchesOff_sleepLoop (hs : s.sleepLoop interrupts = some s')
    (hruns : ∀ l ∈ s.runLevels, l = .IntOff) (hl : s.level = .IntOff) : SwitchesOff s' := by
  obtain ⟨xs, n, rest, -, -, rfl⟩ := Sched.sleepLoop_cases hs
  have hh := Sched.handlers_listsOnly xs s
  exact switchesOff_run n (by rw [hh.runLevels]; exact hruns) (by rw [hh.level, hl])

theorem SwitchesOff.listsOnly (h : SwitchesOff s) (hl : Sched.ListsOnly s s') : SwitchesOff s' := by
  constructor
  · rw [hl.runLevels]
    exact h.runs
  · rw [hl.currentThread, hl.code, hl.level]
    exact h.inP

theorem switchesOff_testP {x : ℕ} {oldLevel : IntStatus}
    (ht : s.testP x oldLevel interrupts = some s') (hruns : ∀ l ∈ s.runLevels, l = .IntOff)
    (hl : s.level = .IntOff) : SwitchesOff s' := by
  unfold Sched.testP at ht
  dsimp only at ht
  split_ifs at ht with hv
  · exact switchesOff_sleepLoop ht hruns hl
  · cases ht
    refine ⟨hruns, fun y l hc => ?_⟩
    simp at hc

theorem SwitchesOff.step {o : Operation} (h : SwitchesOff s) (hst : SchedStep s o s') :
    SwitchesOff s' := by
  obtain ⟨hen, hnext⟩ := hst
  cases o with
  | fork u =>
    cases hnext
    refine ⟨h.runs, fun x l hc => h.inP x l ?_⟩
    have hne : s.currentThread ≠ u := by
      rintro rfl
      cases hen.1.symm.trans hen.2
    rwa [← update_of_ne hne .threadRoot s.code]
  | yield =>
    cases hnext
    unfold Sched.yield
    split
    · exact h
    · exact switchesOff_run _ h.runs rfl
  | semP x interrupts => exact switchesOff_testP hnext h.runs rfl
  | retest x oldLevel interrupts => exact switchesOff_testP hnext h.runs (h.inP x oldLevel hen)
  | semV x =>
    cases hnext
    exact h.listsOnly (Sched.semV_listsOnly x s)
  | destroy x =>
    cases hnext
    exact h.listsOnly (Sched.destroy_listsOnly x s)
  | finish interrupts => exact switchesOff_sleepLoop hnext h.runs rfl
  | setLevel now =>
    cases hnext
    refine ⟨h.runs, fun x l hc => ?_⟩
    have hout : s.code s.currentThread = .outside := hen
    rw [hout] at hc
    cases hc
  | interrupt xs =>
    cases hnext
    exact h.listsOnly (Sched.handlers_listsOnly xs s)

theorem SchedReach.switchesOff (h : SchedReach s) : SwitchesOff s := by
  refine Reach.invariant (I := SwitchesOff) ?_ (fun _ _ _ hs hst => hs.step hst) h
  rintro s ⟨level, initialValue, rfl⟩
  exact ⟨by simp, fun x l hc => by simp at hc⟩

end switches

/-- **Thread placement.**  Between two steps, a thread that has been forked and has not finished is
the running thread with status `RUNNING`, or once on the ready list with status `READY`, or once on
the queue of exactly one semaphore with status `BLOCKED`, and in no other of these places; a thread
that has finished is in none of them; and `Run` is only called with interrupts off. -/
theorem thread_placement {s : Sched} (h : SchedReach s) :
    (∀ t, s.code t ≠ .unborn → s.code t ≠ .finished →
      (s.currentThread = t ∧ s.status t = .RUNNING ∧ t ∉ s.readyList ∧
        ∀ x, t ∉ (s.sems x).queue) ∨
      (s.currentThread ≠ t ∧ s.readyList.count t = 1 ∧ s.status t = .READY ∧
        ∀ x, t ∉ (s.sems x).queue) ∨
      (s.currentThread ≠ t ∧ t ∉ s.readyList ∧ s.status t = .BLOCKED ∧
        ∃ x, (s.sems x).queue.count t = 1 ∧ ∀ y, t ∈ (s.sems y).queue → y = x)) ∧
    (∀ t, s.code t = .finished →
      s.currentThread ≠ t ∧ t ∉ s.readyList ∧ ∀ x, t ∉ (s.sems x).queue) ∧
    (∀ l ∈ s.runLevels, l = .IntOff) := by
  have hp := h.placed
  refine ⟨?_, ?_, h.switchesOff.runs⟩
  · intro t hborn hfin
    rcases hp.everyone t hborn hfin with h1 | h1 | ⟨x, h1⟩ | h1
    · obtain ⟨h2, -, h3, h4⟩ := hp.running t h1
      exact Or.inl ⟨Option.some.inj h1, h2, h3, h4⟩
    · obtain ⟨h2, -, h3⟩ := hp.ready t h1
      refine Or.inr (Or.inl ⟨fun hc => ?_, List.count_eq_one_of_mem hp.readyOnce h1, h2, h3⟩)
      exact (hp.running t (congrArg some hc)).2.2.1 h1
    · obtain ⟨h2, -⟩ := hp.queued x t h1
      refine Or.inr (Or.inr ⟨fun hc => ?_, fun hr => (hp.ready t hr).2.2 x h1, h2, x,
        List.count_eq_one_of_mem (hp.queuedOnce x) h1, fun y hy => hp.queue_unique h1 hy⟩)
      exact (hp.running t (congrArg some hc)).2.2.2 x h1
    · exact absurd h1 List.not_mem_nil
  · intro t hfin
    refine ⟨fun hc => ?_, fun hr => ?_, fun x hx => ?_⟩
    · rcases (hp.running t (congrArg some hc)).2.1 with h1 | ⟨x, l, h1⟩ <;> simp [h1] at hfin
    · rcases (hp.ready t hr).2.1 with h1 | ⟨l, h1⟩ | ⟨x, l, h1⟩ <;> simp [h1] at hfin
    · obtain ⟨-, l, h1⟩ := hp.queued x t hx
      simp [h1] at hfin

theorem thread_placement_oneWaits :
    ∃ s, SchedReach s ∧ s.currentThread = 0 ∧ s.code 1 = .inP 3 .IntOn ∧
      ((s.currentThread = 1 ∧ s.status 1 = .RUNNING ∧ 1 ∉ s.readyList ∧
        ∀ x, 1 ∉ (s.sems x).queue) ∨
      (s.currentThread ≠ 1 ∧ s.readyList.count 1 = 1 ∧ s.status 1 = .READY ∧
        ∀ x, 1 ∉ (s.sems x).queue) ∨
      (s.currentThread ≠ 1 ∧ 1 ∉ s.readyList ∧ s.status 1 = .BLOCKED ∧
        ∃ x, (s.sems x).queue.count 1 = 1 ∧ ∀ y, 1 ∈ (s.sems y).queue → y = x)) := by
  obtain ⟨s, hr, h0, h1⟩ : ∃ s, SchedReach s ∧ s.currentThread = 0 ∧ s.code 1 = .inP 3 .IntOn :=
    Reach.exists_run (fun _ _ _ => Operation.exec_step) (.init mainThread_init)
      [.fork 1, .yield, .semP 3 []] (by decide +kernel)
  exact ⟨s, hr, h0, h1, (thread_placement hr).1 1 (by simp [h1]) (by simp [h1])⟩

end Nachos
