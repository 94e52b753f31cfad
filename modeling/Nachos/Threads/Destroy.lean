import Nachos.Threads.Placement

/-!
# Destroying a semaphore

`Semaphore::Destroy` puts the threads that wait on the ready list.  Each of them comes back from
`Sleep` inside the loop of `P` and tests `value` again; `Destroy` has not changed it.

* `DestroyFrees` says what the comment of `Destroy` says: the waiting threads are let go.
* It holds only if nobody waits (`destroy_frees_iff`).  Otherwise there is a schedule without `V` in
  which a waiting thread finds the value 0 and goes back to the queue: the caller of `Destroy` takes
  what is left of the value, and then every thread on the ready list in front of that thread runs
  until it yields or sleeps.
-/

namespace Nachos

open Function Transition

/-- Some `V` on `x` is called in the step. -/
def Operation.Signals (x : ℕ) : Operation → Prop
  | .semV y => y = x
  | .semP _ interrupts => ∃ ys ∈ interrupts, x ∈ ys
  | .retest _ _ interrupts => ∃ ys ∈ interrupts, x ∈ ys
  | .finish interrupts => ∃ ys ∈ interrupts, x ∈ ys
  | .interrupt ys => x ∈ ys
  | _ => False

/-- A step without `V` on `x`. -/
def QuietStep (x : ℕ) (s : Sched) (o : Operation) (s' : Sched) : Prop :=
  SchedStep s o s' ∧ ¬ o.Signals x

/-- The states after `x` was destroyed in `s₀`, without any `V` on it. -/
def AfterDestroy (x : ℕ) (s₀ s : Sched) : Prop :=
  Reach (· = s₀.destroy x) (QuietStep x) s

/-- Destroying `x` frees the waiting threads: in every later schedule without `V` on `x`, such a
thread is not on the queue before it has returned from `P`, and it gets out of `P` when it runs. -/
def DestroyFrees (x : ℕ) (s₀ : Sched) : Prop :=
  ∀ s, AfterDestroy x s₀ s → ∀ t ∈ (s₀.sems x).queue, s.returnedP t = s₀.returnedP t →
    t ∉ (s.sems x).queue ∧ (s.currentThread = t → (s.sems x).value ≠ 0)

/-! ### Small facts about the functions of the scheduler -/

namespace Sched

variable {s s' : Sched} {n u x : ℕ} {l : IntStatus}

@[simp] theorem run_readyList : (s.run n).readyList = s.readyList := by
  unfold run
  dsimp only [setStatus]
  split <;> rfl

@[simp] theorem run_sems : (s.run n).sems = s.sems := by
  unfold run
  dsimp only [setStatus]
  split <;> rfl

@[simp] theorem run_returnedP : (s.run n).returnedP = s.returnedP := by
  unfold run
  dsimp only [setStatus]
  split <;> rfl

/-- A thread in `P` stays there when it is switched to. -/
theorem run_inP (h : s.code u = .inP x l) : (s.run n).code u = .inP x l := by
  unfold run
  dsimp only [setStatus]
  by_cases hu : u = n
  · subst hu
    rw [h]
    exact h
  · split
    · exact (update_of_ne hu ..).trans h
    · exact (update_of_ne hu ..).trans h
    · exact h

theorem freeAll_readyList (queue : List ℕ) :
    (s.freeAll queue).readyList = s.readyList ++ queue := by
  induction queue generalizing s with
  | nil => exact (List.append_nil _).symm
  | cons t queue ih =>
    refine ih.trans ?_
    simp [readyToRun]

theorem destroy_readyList : (s.destroy x).readyList = s.readyList ++ (s.sems x).queue :=
  freeAll_readyList _

end Sched

/-! ### A bad schedule -/

section schedule

variable {x t : ℕ} {s₀ s : Sched}

theorem AfterDestroy.reach (h : AfterDestroy x s₀ s) (hr : SchedReach s₀)
    (hc : s₀.code s₀.currentThread = .outside) : SchedReach s := by
  induction h with
  | init hi =>
    subst hi
    exact .step (.destroy x) hr ⟨hc, rfl⟩
  | step o _ hst ih => exact .step o ih hst.1

/-- The running thread takes what is left of the value, down to 0. -/
theorem AfterDestroy.drain (v : ℕ) (h : AfterDestroy x s₀ s)
    (hc : s.code s.currentThread = .outside) (hv : (s.sems x).value.toNat = v) :
    ∃ s', AfterDestroy x s₀ s' ∧ (s'.sems x).value = 0 ∧ s'.currentThread = s.currentThread ∧
      s'.code = s.code ∧ s'.readyList = s.readyList ∧
      ∀ u, u ≠ s.currentThread → s'.returnedP u = s.returnedP u := by
  induction v generalizing s with
  | zero => exact ⟨s, h, BitVec.eq_of_toNat_eq hv, rfl, rfl, rfl, fun _ _ => rfl⟩
  | succ v ih =>
    have hne : (s.sems x).value ≠ 0 := fun h0 => by simp [h0] at hv
    let s₁ : Sched := { ({ s with level := .IntOff }.setSem x
        { s.sems x with value := (s.sems x).value - 1 }).goto s.currentThread .outside with
      level := s.level
      returnedP := update s.returnedP s.currentThread (s.returnedP s.currentThread + 1) }
    have hcode : s₁.code = s.code := by
      refine (update_eq_self_iff.2 ?_)
      exact hc.symm
    have hst : QuietStep x s (.semP x []) s₁ := by
      refine ⟨⟨hc, ?_⟩, by simp [Operation.Signals]⟩
      simp only [Operation.next, Sched.testP, if_neg hne]
      rfl
    have hv₁ : (s₁.sems x).value.toNat = v := by
      simp only [s₁, Sched.goto, Sched.setSem, update_self]
      bv_omega
    obtain ⟨s', h1, h2, h3, h4, h5, h6⟩ := ih (.step (.semP x []) h hst)
      (by rw [hcode]; exact hc) hv₁
    refine ⟨s', h1, h2, h3, h4.trans hcode, h5, fun u hu => ?_⟩
    rw [h6 u hu]
    exact update_of_ne hu ..

/-- A thread outside the kernel yields to the first ready thread. -/
theorem AfterDestroy.yieldTo {m : ℕ} {rest : List ℕ} (h : AfterDestroy x s₀ s)
    (hc : s.code s.currentThread = .outside) (hl : s.readyList = m :: rest) :
    ∃ s', AfterDestroy x s₀ s' ∧ s'.currentThread = m ∧
      s'.readyList = rest ++ [s.currentThread] ∧ s'.sems = s.sems ∧
      s'.returnedP = s.returnedP ∧
      ∀ u l, u ≠ s.currentThread → s.code u = .inP x l → s'.code u = .inP x l := by
  have hy : s.yield = Sched.run m (({ s with level := .IntOff, readyList := rest }.goto
      s.currentThread (.inYield s.level)).readyToRun s.currentThread) := by
    simp only [Sched.yield, hl]
  refine ⟨s.yield, .step .yield h ⟨⟨hc, rfl⟩, id⟩, ?_⟩
  rw [hy]
  refine ⟨Sched.run_currentThread .., Sched.run_readyList, Sched.run_sems, Sched.run_returnedP,
    fun u l hu hcode => Sched.run_inP ?_⟩
  exact (update_of_ne hu ..).trans hcode

/-- The running thread tests a value that is 0 and sleeps. -/
theorem AfterDestroy.sleepOn {m y : ℕ} {rest : List ℕ} {l : IntStatus} (h : AfterDestroy x s₀ s)
    (hc : s.code s.currentThread = .inP y l) (hv : (s.sems y).value = 0)
    (hl : s.readyList = m :: rest) :
    ∃ s', AfterDestroy x s₀ s' ∧ s'.currentThread = m ∧ s'.readyList = rest ∧
      s.currentThread ∈ (s'.sems y).queue ∧ (∀ z, (s'.sems z).value = (s.sems z).value) ∧
      s'.returnedP = s.returnedP ∧
      ∀ u k, u ≠ s.currentThread → s.code u = .inP x k → s'.code u = .inP x k := by
  let s₁ : Sched := ((s.setSem y { s.sems y with
      queue := (s.sems y).queue ++ [s.currentThread] }).goto s.currentThread (.inP y l)).setStatus
    s.currentThread .BLOCKED
  have hl₁ : s₁.readyList = m :: rest := hl
  have hnext : s.testP y l [] = some (Sched.run m { s₁ with readyList := rest }) := by
    have h1 : s₁.dispatch = some (Sched.run m { s₁ with readyList := rest }) := by
      simp only [Sched.dispatch, hl₁]
    simp only [Sched.testP, if_pos hv]
    exact h1
  refine ⟨_, .step (.retest y l []) h ⟨⟨hc, hnext⟩, by simp [Operation.Signals]⟩, ?_⟩
  refine ⟨Sched.run_currentThread .., Sched.run_readyList, ?_, fun z => ?_, Sched.run_returnedP,
    fun u k hu hcode => Sched.run_inP ?_⟩
  · rw [Sched.run_sems]
    simp [s₁]
  · rw [Sched.run_sems]
    by_cases hz : z = y
    · subst hz
      simp [s₁]
    · simp [s₁, hz]
  · exact (update_of_ne hu ..).trans hcode

/-- The running thread gives the processor to the first ready thread; a thread in `P` on `x` stays
where it is. -/
theorem AfterDestroy.relinquish {m : ℕ} {rest : List ℕ} (h : AfterDestroy x s₀ s)
    (hr : SchedReach s) (hv : (s.sems x).value = 0) (hl : s.readyList = m :: rest) :
    ∃ s' tail, AfterDestroy x s₀ s' ∧ s'.currentThread = m ∧ s'.readyList = rest ++ tail ∧
      (s'.sems x).value = 0 ∧ (s.code s.currentThread = .outside → tail ≠ []) ∧
      ∀ u l, u ≠ s.currentThread → s.code u = .inP x l →
        s'.code u = .inP x l ∧ s'.returnedP u = s.returnedP u := by
  rcases (hr.placed.running _ rfl).2.1 with hc | ⟨y, l, hc⟩
  · obtain ⟨s', h1, h2, h3, h4, h5, h6⟩ := h.yieldTo hc hl
    exact ⟨s', _, h1, h2, h3, by rw [h4]; exact hv, fun _ => List.cons_ne_nil _ _,
      fun u k hu hcode => ⟨h6 u k hu hcode, by rw [h5]⟩⟩
  · by_cases hvy : (s.sems y).value = 0
    · obtain ⟨s', h1, h2, h3, -, h4, h5, h6⟩ := h.sleepOn hc hvy hl
      refine ⟨s', [], h1, h2, by rw [h3, List.append_nil], by rw [h4, hv], fun hout => ?_,
        fun u k hu hcode => ⟨h6 u k hu hcode, by rw [h5]⟩⟩
      rw [hc] at hout
      cases hout
    · -- it gets out of `P`, and yields
      have hyx : y ≠ x := by
        rintro rfl
        exact hvy hv
      let s₁ : Sched := { (s.setSem y { s.sems y with value := (s.sems y).value - 1 }).goto
          s.currentThread .outside with
        level := l
        returnedP := update s.returnedP s.currentThread
          (s.returnedP s.currentThread + 1) }
      have hst : QuietStep x s (.retest y l []) s₁ := by
        refine ⟨⟨hc, ?_⟩, by simp [Operation.Signals]⟩
        simp only [Operation.next, Sched.testP, if_neg hvy]
        rfl
      have hc₁ : s₁.code s₁.currentThread = .outside := update_self ..
      obtain ⟨s', h1, h2, h3, h4, h5, h6⟩ :=
        AfterDestroy.yieldTo (.step (.retest y l []) h hst) hc₁ hl
      refine ⟨s', _, h1, h2, h3, ?_, fun _ => List.cons_ne_nil _ _, fun u k hu hcode => ⟨?_, ?_⟩⟩
      · rw [h4]
        exact (congrArg Semaphore.value (update_of_ne hyx.symm ..)).trans hv
      · exact h6 u k hu ((update_of_ne hu ..).trans hcode)
      · rw [h5]
        exact update_of_ne hu ..

/-- Every thread in front of `t` on the ready list has run, and `t` tests the value. -/
theorem AfterDestroy.reachWaiter {l : IntStatus} (hs₀ : SchedReach s₀)
    (hc₀ : s₀.code s₀.currentThread = .outside) (front : List ℕ) {back : List ℕ}
    (h : AfterDestroy x s₀ s) (hv : (s.sems x).value = 0) (hl : s.readyList = front ++ t :: back)
    (hback : s.code s.currentThread = .outside ∨ back ≠ []) (ht : s.code t = .inP x l) :
    ∃ s', AfterDestroy x s₀ s' ∧ s'.currentThread = t ∧ s'.code t = .inP x l ∧
      (s'.sems x).value = 0 ∧ s'.readyList ≠ [] ∧ s'.returnedP t = s.returnedP t := by
  induction front generalizing s back with
  | nil =>
    have hr := h.reach hs₀ hc₀
    have htc : t ≠ s.currentThread := by
      intro he
      refine (hr.placed.running _ rfl).2.2.1 ?_
      rw [← he, hl]
      exact List.mem_cons_self
    obtain ⟨s', tail, h1, h2, h3, h4, h5, h6⟩ := h.relinquish hr hv hl
    refine ⟨s', h1, h2, (h6 t l htc ht).1, h4, ?_, (h6 t l htc ht).2⟩
    rw [h3]
    rcases hback with hb | hb
    · exact List.append_ne_nil_of_right_ne_nil _ (h5 hb)
    · exact List.append_ne_nil_of_left_ne_nil hb _
  | cons m front ih =>
    have hr := h.reach hs₀ hc₀
    have htc : t ≠ s.currentThread := by
      intro he
      refine (hr.placed.running _ rfl).2.2.1 ?_
      rw [← he, hl]
      simp
    obtain ⟨s₁, tail, h1, h2, h3, h4, h5, h6⟩ := h.relinquish hr hv hl
    have hback₁ : back ++ tail ≠ [] := by
      rcases hback with hb | hb
      · exact List.append_ne_nil_of_right_ne_nil _ (h5 hb)
      · exact List.append_ne_nil_of_left_ne_nil hb _
    obtain ⟨s', g1, g2, g3, g4, g5, g6⟩ := ih h1 h4 (by rw [h3]; simp) (Or.inr hback₁)
      (h6 t l htc ht).1
    exact ⟨s', g1, g2, g3, g4, g5, g6.trans (h6 t l htc ht).2⟩

end schedule

/-- **`Destroy` frees nobody.**  It frees the threads that wait, in every schedule without a further
`V`, if and only if no thread waits. -/
theorem destroy_frees_iff {s : Sched} (hs : SchedReach s)
    (hc : s.code s.currentThread = .outside) (x : ℕ) :
    DestroyFrees x s ↔ (s.sems x).queue = [] := by
  constructor
  · intro hfree
    by_contra hne
    obtain ⟨t, queue, hq⟩ := List.exists_cons_of_ne_nil hne
    have htq : t ∈ (s.sems x).queue := by
      rw [hq]
      exact List.mem_cons_self
    obtain ⟨-, l, ht⟩ := hs.placed.queued x t htq
    have htc : t ≠ s.currentThread := by
      rintro rfl
      exact (hs.placed.running _ rfl).2.2.2 x htq
    have hlists := Sched.destroy_listsOnly x s
    have h0 : AfterDestroy x s (s.destroy x) := .init rfl
    obtain ⟨s₁, h1, hv₁, hcur, hcode, hready, hret⟩ := h0.drain _
      (by rw [hlists.code, hlists.currentThread]; exact hc) rfl
    rw [hlists.code] at hcode
    rw [hlists.currentThread] at hcur hret
    have hl₁ : s₁.readyList = s.readyList ++ t :: queue := by
      rw [hready, Sched.destroy_readyList, hq]
    obtain ⟨s₂, h2, hcur₂, ht₂, hv₂, hready₂, hret₂⟩ := h1.reachWaiter hs hc s.readyList hv₁ hl₁
      (Or.inl (by rw [hcode, hcur]; exact hc)) (by rw [hcode]; exact ht)
    -- now `t` is at the test, and the value is 0
    obtain ⟨m, rest, hl₂⟩ := List.exists_cons_of_ne_nil hready₂
    obtain ⟨s₃, h3, -, -, hback, -, hret₃, -⟩ := h2.sleepOn (by rw [hcur₂]; exact ht₂) hv₂ hl₂
    rw [hcur₂] at hback
    refine (hfree s₃ h3 t htq ?_).1 hback
    rw [hret₃, hret₂, hret t htc, hlists.returnedP]
  · intro hq s' _ t ht
    rw [hq] at ht
    exact absurd ht List.not_mem_nil

/-- Thread 1 waits for the semaphore 3. -/
theorem oneWaits : ∃ s, SchedReach s ∧ s.code s.currentThread = .outside ∧
    (s.sems 3).queue = [1] :=
  Reach.exists_run (fun _ _ _ => Operation.exec_step) (.init mainThread_init)
    [.fork 1, .yield, .semP 3 []] (by decide +kernel)

theorem destroy_frees_oneWaits :
    DestroyFrees 3 mainThread ∧
      ∃ s, SchedReach s ∧ (s.sems 3).queue = [1] ∧ ¬ DestroyFrees 3 s := by
  obtain ⟨s, hr, hc, hq⟩ := oneWaits
  refine ⟨(destroy_frees_iff (.init mainThread_init) rfl 3).2 rfl, s, hr, hq, fun hfree => ?_⟩
  have hnil := (destroy_frees_iff hr hc 3).1 hfree
  rw [hq] at hnil
  cases hnil

instance Operation.decidableSignals (x : ℕ) : ∀ o : Operation, Decidable (o.Signals x)
  | .semV y => inferInstanceAs (Decidable (y = x))
  | .semP _ interrupts | .retest _ _ interrupts | .finish interrupts =>
    inferInstanceAs (Decidable (∃ ys ∈ interrupts, x ∈ ys))
  | .interrupt ys => inferInstanceAs (Decidable (x ∈ ys))
  | .fork _ | .yield | .destroy _ | .setLevel _ => isFalse id

/-- Take a step without `V` on `x`. -/
def Operation.execQuiet (x : ℕ) (s : Sched) (o : Operation) : Option Sched :=
  if o.Signals x then none else o.exec s

theorem Operation.execQuiet_step {x : ℕ} {s s' : Sched} {o : Operation}
    (h : Operation.execQuiet x s o = some s') : QuietStep x s o s' := by
  unfold Operation.execQuiet at h
  split_ifs at h with hsig
  exact ⟨Operation.exec_step h, hsig⟩

/-- The main thread destroys the semaphore and yields; thread 1 runs, and it is back on the queue,
in the same call of `P`. -/
theorem destroy_requeues :
    ∃ s s', SchedReach s ∧ s.code s.currentThread = .outside ∧ (s.sems 3).queue = [1] ∧
      AfterDestroy 3 s s' ∧ (s'.sems 3).queue = [1] ∧ s'.returnedP 1 = s.returnedP 1 ∧
      s'.code 1 = .inP 3 .IntOn := by
  obtain ⟨s, hr, hc, hq, hrun⟩ : ∃ s, SchedReach s ∧ s.code s.currentThread = .outside ∧
      (s.sems 3).queue = [1] ∧
      ([.yield, .retest 3 .IntOn []].foldlM (Operation.execQuiet 3) (s.destroy 3)).any
        (fun s' => decide ((s'.sems 3).queue = [1] ∧ s'.returnedP 1 = s.returnedP 1 ∧
          s'.code 1 = .inP 3 .IntOn)) = true :=
    Reach.exists_run (fun _ _ _ => Operation.exec_step) (.init mainThread_init)
      [.fork 1, .yield, .semP 3 []] (by decide +kernel)
  obtain ⟨s', hs', hrest⟩ : ∃ s', AfterDestroy 3 s s' ∧ _ :=
    Reach.exists_run (fun _ _ _ => Operation.execQuiet_step) (.init rfl) _ hrun
  exact ⟨s, s', hr, hc, hq, hs', hrest⟩

end Nachos
