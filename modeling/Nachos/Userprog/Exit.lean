import Nachos.Threads.Placement
import Nachos.Userprog.Join

/-!
# `Nachos_Exit` and the scheduler

`Nachos_Exit` wakes whoever joined the process and then gives up the CPU, in one of two ways: when a
thread is ready it calls `Scheduler::Run` itself, and otherwise `Thread::Finish`.  Only the second
sets the status of the thread and `threadToBeDestroyed`.

* `Exiting` has the scheduler, the exec table, and for every thread the numbers of its open-file
  table and its semaphore table, whose use counts `Thread::~Thread` lowers.
* `Signals`: the slots whose joiner the loop of `Nachos_Exit` wakes.
* `exit_ends_iff`: the thread has ended exactly when nobody was ready.
-/

namespace Nachos

open Function

/-- The threads, the exec table, and the tables of the threads. -/
structure Exiting where
  sched : Sched
  execFiles : Fin ExecTableSize → Option JoinS
  execFilesMap : BitMap ExecTableSize
  -- the tables of a thread; forked threads share them
  mytable : ℕ → ℕ
  mySems : ℕ → ℕ
  -- the field `usage` of a table
  tableUsage : ℕ → ℤ
  semsUsage : ℕ → ℤ

namespace Exiting

/-- `Thread::~Thread`. -/
def deleteThread (s : Exiting) (t : ℕ) : Exiting :=
  { s with
    tableUsage := update s.tableUsage (s.mytable t) (s.tableUsage (s.mytable t) - 1)
    semsUsage := update s.semsUsage (s.mySems t) (s.semsUsage (s.mySems t) - 1) }

/-- The scheduler has come to `sched`; what it has deleted since is deleted. -/
def switched (s : Exiting) (sched : Sched) : Exiting :=
  (sched.deleted.drop s.sched.deleted.length).foldl deleteThread { s with sched := sched }

/-- One turn of the loop of `Nachos_Exit`. -/
def exitSlot (s : Exiting) (ind : Fin ExecTableSize) : Option Exiting :=
  exitSlotOf s.execFiles s.execFilesMap s.sched.currentThread
    (fun sem => { s with sched := s.sched.semV sem })
    { s with
      execFiles := update s.execFiles ind none
      execFilesMap := s.execFilesMap.clearBit ind } s ind

/-- `Nachos_Exit`, until another thread has the CPU; `none` if the machine halts in `Idle`. -/
def nachosExit (interrupts : List (List ℕ)) (s : Exiting) : Option Exiting := do
  let s ← (List.finRange ExecTableSize).foldlM exitSlot
    { s with sched := { s.sched with level := .IntOff } }
  match s.sched.readyList with
  | nextThread :: rest => return s.switched (.run nextThread { s.sched with readyList := rest })
  | [] => return s.switched (← s.sched.finish interrupts)

/-- The loop calls `V` on `sem` for the slot `ind`. -/
def Signals (s : Exiting) (ind : Fin ExecTableSize) (sem : ℕ) : Prop :=
  s.execFilesMap.isSet ind = true ∧
    ∃ e, s.execFiles ind = some e ∧ s.sched.currentThread = e.threadId ∧ e.s = some sem

/-- Nobody is ready, and nobody waits on a semaphore that the loop signals. -/
def NobodyReady (s : Exiting) : Prop :=
  s.sched.readyList = [] ∧ ∀ ind sem, s.Signals ind sem → (s.sched.sems sem).queue = []

/-- The thread that called has ended: it does not run, it is on no list, and it is deleted, or will
be by the next thread that comes back from `SWITCH`, with one use less of its tables. -/
structure Ended (s s' : Exiting) : Prop where
  status : s'.sched.status s.sched.currentThread ≠ .RUNNING
  unlisted : s'.sched.Unlisted s.sched.currentThread
  handed : s'.sched.threadToBeDestroyed = some s.sched.currentThread ∨
    s'.sched.deleted = s.sched.deleted ++ [s.sched.currentThread]
  deleted : (s'.switched s'.sched.resume).sched.deleted =
    s.sched.deleted ++ [s.sched.currentThread]
  tableUsage : (s'.switched s'.sched.resume).tableUsage (s.mytable s.sched.currentThread) =
    s.tableUsage (s.mytable s.sched.currentThread) - 1
  semsUsage : (s'.switched s'.sched.resume).semsUsage (s.mySems s.sched.currentThread) =
    s.semsUsage (s.mySems s.sched.currentThread) - 1

end Exiting

/-! ### A thread that is on no list -/

/-- The thread `t` has the status `st` and is on no list. -/
def Sched.Aside (t : ℕ) (st : ThreadStatus) (s : Sched) : Prop := s.status t = st ∧ s.Unlisted t

variable {interrupts : List (List ℕ)}

section aside

variable {t : ℕ} {st : ThreadStatus} {s : Sched}

theorem Sched.Aside.semV (h : s.Aside t st) (x : ℕ) : (s.semV x).Aside t st := by
  obtain ⟨hst, hready, hqueue⟩ := h
  unfold Sched.semV
  split
  · rename_i hq
    refine ⟨hst, hready, fun y => ?_⟩
    by_cases hy : y = x
    · subst hy
      simp
    · simp only [Sched.setSem, update_of_ne hy]
      exact hqueue y
  · rename_i u queue hq
    have hx : t ∉ u :: queue := hq ▸ hqueue x
    have hu : t ≠ u := fun heq => hx (heq ▸ List.mem_cons_self)
    refine ⟨?_, ?_, fun y => ?_⟩
    · exact (update_of_ne hu ..).trans hst
    · simp only [Sched.readyToRun, Sched.setSem, Sched.setStatus, List.mem_append,
        List.mem_singleton, not_or]
      exact ⟨hready, hu⟩
    · by_cases hy : y = x
      · subst hy
        simp only [Sched.readyToRun, Sched.setSem, Sched.setStatus, update_self]
        exact fun hm => hx (List.mem_cons_of_mem u hm)
      · simp only [Sched.readyToRun, Sched.setSem, Sched.setStatus, update_of_ne hy]
        exact hqueue y

theorem Sched.Aside.handlers (h : s.Aside t st) (xs : List ℕ) : (s.handlers xs).Aside t st := by
  induction xs generalizing s with
  | nil => exact h
  | cons x xs ih => exact ih (h.semV x)

theorem Sched.run_status (n : ℕ) (s : Sched) :
    (s.run n).status = update s.status n .RUNNING := by
  unfold Sched.run
  dsimp only [Sched.setStatus]
  split <;> rfl

theorem Sched.run_lists (n : ℕ) (s : Sched) :
    (s.run n).readyList = s.readyList ∧ (s.run n).sems = s.sems := by
  unfold Sched.run
  dsimp only [Sched.setStatus]
  split <;> exact ⟨rfl, rfl⟩

/-- Another thread gets the CPU. -/
theorem Sched.Aside.run {n : ℕ} {rest : List ℕ} (h : s.Aside t st)
    (hr : s.readyList = n :: rest) : (Sched.run n { s with readyList := rest }).Aside t st := by
  obtain ⟨hst, hready, hqueue⟩ := h
  rw [hr] at hready
  have hne : t ≠ n := fun heq => hready (heq ▸ List.mem_cons_self)
  obtain ⟨hlist, hsems⟩ := Sched.run_lists n { s with readyList := rest }
  refine ⟨?_, ?_, ?_⟩
  · rw [Sched.run_status, update_of_ne hne]
    exact hst
  · rw [hlist]
    exact fun hm => hready (List.mem_cons_of_mem n hm)
  · rw [hsems]
    exact hqueue

/-- `Run` deletes the carcass if the thread comes back from `SWITCH`. -/
theorem Sched.run_carcass (n : ℕ) (s : Sched) :
    (s.run n).threadToBeDestroyed = s.threadToBeDestroyed ∧ (s.run n).deleted = s.deleted ∨
    (s.run n).threadToBeDestroyed = none ∧
      (s.run n).deleted = s.deleted ++ s.threadToBeDestroyed.toList := by
  unfold Sched.run
  dsimp only [Sched.setStatus]
  split
  · exact Or.inl ⟨rfl, rfl⟩
  · exact Or.inr ⟨rfl, rfl⟩
  · exact Or.inr ⟨rfl, rfl⟩

/-- In the loop of `Sleep` other threads become ready, and one of them gets the CPU. -/
theorem Sched.sleepLoop_aside {s' : Sched} (h : s.sleepLoop interrupts = some s')
    (ha : s.Aside t st) (hd : s.threadToBeDestroyed = some t) :
    s'.Aside t st ∧
      (s'.threadToBeDestroyed = some t ∧ s'.deleted = s.deleted ∨
        s'.threadToBeDestroyed = none ∧ s'.deleted = s.deleted ++ [t]) := by
  obtain ⟨xs, n, rest, -, hr, rfl⟩ := Sched.sleepLoop_cases h
  have hl := Sched.handlers_listsOnly xs s
  refine ⟨(ha.handlers xs).run hr, ?_⟩
  rcases Sched.run_carcass n { s.handlers xs with readyList := rest } with ⟨h1, h2⟩ | ⟨h1, h2⟩
  · exact Or.inl ⟨h1.trans (hl.threadToBeDestroyed.trans hd), h2.trans hl.deleted⟩
  · refine Or.inr ⟨h1, h2.trans ?_⟩
    dsimp only
    rw [hl.threadToBeDestroyed, hl.deleted, hd]
    rfl

/-- **What `Finish` does to its thread**, once another thread has the CPU. -/
theorem Sched.finish_ended {s' : Sched} (hu : s.Unlisted s.currentThread)
    (h : s.finish interrupts = some s') :
    s'.Aside s.currentThread .BLOCKED ∧
      (s'.threadToBeDestroyed = some s.currentThread ∧ s'.deleted = s.deleted ∨
        s'.threadToBeDestroyed = none ∧ s'.deleted = s.deleted ++ [s.currentThread]) := by
  unfold Sched.finish Sched.sleep at h
  have hended := Sched.sleepLoop_aside h ⟨update_self .., hu⟩ rfl
  exact hended

end aside

/-! ### The loop over the exec table -/

namespace Exiting

variable {s s' : Exiting}

/-- A turn signals a semaphore, or leaves the threads alone; other slots stay as they are. -/
theorem exitSlot_cases {ind : Fin ExecTableSize} (h : s.exitSlot ind = some s') :
    (s'.mytable = s.mytable ∧ s'.mySems = s.mySems ∧ s'.tableUsage = s.tableUsage ∧
      s'.semsUsage = s.semsUsage ∧ ∀ i, i ≠ ind → s'.execFiles i = s.execFiles i ∧
        s'.execFilesMap.isSet i = s.execFilesMap.isSet i) ∧
    ((∃ sem, s.Signals ind sem ∧ s'.sched = s.sched.semV sem) ∨
      (∀ sem, ¬ s.Signals ind sem) ∧ s'.sched = s.sched) := by
  unfold exitSlot exitSlotOf at h
  split_ifs at h with hbit
  · cases he : s.execFiles ind with
    | none => simp [he] at h
    | some e =>
      simp only [he] at h
      split_ifs at h with ht
      · cases hs : e.s with
        | some sem =>
          simp only [hs] at h
          cases h
          exact ⟨⟨rfl, rfl, rfl, rfl, fun i _ => ⟨rfl, rfl⟩⟩,
            Or.inl ⟨sem, ⟨hbit, e, he, ht, hs⟩, rfl⟩⟩
        | none =>
          simp only [hs] at h
          cases h
          refine ⟨⟨rfl, rfl, rfl, rfl, fun i hi => ⟨update_of_ne hi .., ?_⟩⟩,
            Or.inr ⟨?_, rfl⟩⟩
          · simp [Fin.val_inj, Ne.symm hi]
          · rintro sem ⟨-, e', he', -, hs'⟩
            rw [he] at he'
            cases he'
            rw [hs] at hs'
            cases hs'
      · cases h
        refine ⟨⟨rfl, rfl, rfl, rfl, fun i _ => ⟨rfl, rfl⟩⟩, Or.inr ⟨?_, rfl⟩⟩
        rintro sem ⟨-, e', he', ht', -⟩
        rw [he] at he'
        cases he'
        exact ht ht'
  · cases h
    exact ⟨⟨rfl, rfl, rfl, rfl, fun i _ => ⟨rfl, rfl⟩⟩, Or.inr ⟨fun sem hs => hbit hs.1, rfl⟩⟩

variable {sched : Sched}

/-- `V` on a semaphore nobody waits on. -/
theorem semV_of_queue {sem : ℕ} (hq : (sched.sems sem).queue = []) :
    (sched.semV sem).readyList = sched.readyList ∧
      ∀ x, ((sched.semV sem).sems x).queue = (sched.sems x).queue := by
  simp only [Sched.semV, hq]
  refine ⟨rfl, fun x => ?_⟩
  by_cases hx : x = sem
  · subst hx
    simp [hq]
  · simp [hx]

/-- `V` on a semaphore somebody waits on. -/
theorem semV_ready {sem : ℕ} (hq : (sched.sems sem).queue ≠ []) :
    (sched.semV sem).readyList ≠ [] := by
  unfold Sched.semV
  split
  · rename_i hnil
    exact absurd hnil hq
  · simp

/-- The loop changes lists only, and somebody is ready after it if somebody was, or waited on a
semaphore that it signals. -/
theorem exitLoop_spec {l : List (Fin ExecTableSize)} (hl : l.Nodup)
    (h : l.foldlM exitSlot s = some s') :
    Sched.ListsOnly s.sched s'.sched ∧
    (∀ t st, s.sched.Aside t st → s'.sched.Aside t st) ∧
    (s'.mytable = s.mytable ∧ s'.mySems = s.mySems ∧ s'.tableUsage = s.tableUsage ∧
      s'.semsUsage = s.semsUsage) ∧
    (s'.sched.readyList = [] ↔ s.sched.readyList = [] ∧
      ∀ ind ∈ l, ∀ sem, s.Signals ind sem → (s.sched.sems sem).queue = []) := by
  induction l generalizing s with
  | nil =>
    cases h
    exact ⟨.refl _, fun _ _ => id, ⟨rfl, rfl, rfl, rfl⟩, by simp⟩
  | cons ind l ih =>
    rw [List.foldlM_cons] at h
    obtain ⟨s₁, h₁, h⟩ := Option.bind_eq_some_iff.1 h
    obtain ⟨hind, hl⟩ := List.nodup_cons.1 hl
    obtain ⟨⟨ht, hm, hu, hsu, hother⟩, hcases⟩ := exitSlot_cases h₁
    obtain ⟨hlists, haside, ⟨ht', hm', hu', hsu'⟩, hready⟩ := ih hl h
    have htables := And.intro (ht'.trans ht) (And.intro (hm'.trans hm)
      (And.intro (hu'.trans hu) (hsu'.trans hsu)))
    -- the slots still to come are as they were
    have hsignals : s₁.sched.currentThread = s.sched.currentThread →
        ∀ i ∈ l, ∀ sem, s₁.Signals i sem ↔ s.Signals i sem := by
      intro hcur i hi sem
      obtain ⟨h1, h2⟩ := hother i (fun heq => hind (heq ▸ hi))
      unfold Signals
      rw [h1, h2, hcur]
    rcases hcases with ⟨sem, hsem, heq⟩ | ⟨hno, heq⟩
    · have hlist₁ := Sched.semV_listsOnly sem s.sched
      rw [heq] at hlists haside hready
      have hsig := hsignals (by rw [heq]; exact hlist₁.currentThread)
      refine ⟨hlist₁.trans hlists, fun t st ha => haside t st (ha.semV sem), htables, ?_⟩
      by_cases hq : (s.sched.sems sem).queue = []
      · obtain ⟨h1, h2⟩ := semV_of_queue hq
        rw [hready, h1]
        refine and_congr_right fun _ => ?_
        rw [List.forall_mem_cons]
        constructor
        · intro hall
          refine ⟨fun sem' hsem' => ?_, fun i hi sem' hs => ?_⟩
          · obtain ⟨-, e, he, -, hs⟩ := hsem
            obtain ⟨-, e', he', -, hs'⟩ := hsem'
            rw [he] at he'
            cases he'
            rw [hs] at hs'
            cases hs'
            exact hq
          · rw [← h2]
            exact hall i hi sem' ((hsig i hi sem').2 hs)
        · rintro ⟨-, hall⟩ i hi sem' hs
          rw [h2]
          exact hall i hi sem' ((hsig i hi sem').1 hs)
      · refine iff_of_false (fun hnil => ?_) fun hall => ?_
        · exact semV_ready hq (hready.1 hnil).1
        · exact hq (hall.2 ind List.mem_cons_self sem hsem)
    · rw [heq] at hlists haside hready
      have hsig := hsignals (by rw [heq])
      refine ⟨hlists, haside, htables, ?_⟩
      rw [hready, List.forall_mem_cons]
      refine and_congr_right fun _ => ⟨fun hall => ⟨fun sem hs => absurd hs (hno sem), ?_⟩, ?_⟩
      · exact fun i hi sem hs => hall i hi sem ((hsig i hi sem).2 hs)
      · rintro ⟨-, hall⟩ i hi sem hs
        exact hall i hi sem ((hsig i hi sem).1 hs)

/-! ### Both ways of giving up the CPU -/

theorem switched_sched (s : Exiting) (sched : Sched) : (s.switched sched).sched = sched := by
  unfold switched
  generalize sched.deleted.drop s.sched.deleted.length = l
  have key : ∀ (l : List ℕ) (s : Exiting), (l.foldl deleteThread s).sched = s.sched := by
    intro l
    induction l with
    | nil => exact fun _ => rfl
    | cons t l ih => exact fun s => ih (s.deleteThread t)
  exact key l _

theorem switched_of_deleted (h : sched.deleted = s.sched.deleted) :
    s.switched sched = { s with sched := sched } := by
  simp [switched, h]

theorem switched_of_append {t : ℕ} (h : sched.deleted = s.sched.deleted ++ [t]) :
    s.switched sched = ({ s with sched := sched } : Exiting).deleteThread t := by
  simp [switched, h]

/-- After `Finish` the thread is deleted by the next one that comes back from `SWITCH`. -/
theorem ended_of_finish (hu : s.sched.Unlisted s.sched.currentThread)
    (h : s.sched.finish interrupts = some sched) : Ended s (s.switched sched) := by
  obtain ⟨⟨hst, hun⟩, hcarcass⟩ := Sched.finish_ended hu h
  have hsched := switched_sched s sched
  rcases hcarcass with ⟨hd, hdel⟩ | ⟨hd, hdel⟩
  · -- the carcass waits
    have hres : (s.switched sched).sched.resume.deleted =
        (s.switched sched).sched.deleted ++ [s.sched.currentThread] := by
      rw [hsched]
      simp [Sched.resume, hd]
    have hdelete := switched_of_append hres
    refine ⟨by rw [hsched, hst]; decide, by rw [hsched]; exact hun,
      Or.inl (by rw [hsched]; exact hd), ?_, ?_, ?_⟩
    · rw [switched_sched, hres, hsched, hdel]
    · rw [hdelete, switched_of_deleted hdel]
      exact update_self ..
    · rw [hdelete, switched_of_deleted hdel]
      exact update_self ..
  · -- it is deleted already
    have hres : (s.switched sched).sched.resume.deleted = (s.switched sched).sched.deleted := by
      rw [hsched]
      simp [Sched.resume, hd]
    have hkeep := switched_of_deleted hres
    refine ⟨by rw [hsched, hst]; decide, by rw [hsched]; exact hun,
      Or.inr (by rw [hsched]; exact hdel), ?_, ?_, ?_⟩
    · rw [switched_sched, hres, hsched, hdel]
    · rw [hkeep, switched_of_append hdel]
      exact update_self ..
    · rw [hkeep, switched_of_append hdel]
      exact update_self ..

/-- **Exit ends the thread exactly when nobody is ready.**  The thread runs and so is on no list;
when another thread is ready its status stays `RUNNING`, and it is never deleted. -/
theorem exit_ends_iff {interrupts : List (List ℕ)} (hrun : s.sched.status s.sched.currentThread =
    .RUNNING) (hu : s.sched.Unlisted s.sched.currentThread)
    (h : s.nachosExit interrupts = some s') : Ended s s' ↔ s.NobodyReady := by
  unfold nachosExit at h
  obtain ⟨s₁, hloop, h⟩ := Option.bind_eq_some_iff.1 h
  obtain ⟨hlists, haside, ⟨ht, hm, htu, hsu⟩, hready⟩ := exitLoop_spec (List.nodup_finRange _) hloop
  have haside₁ := haside s.sched.currentThread .RUNNING ⟨hrun, hu⟩
  have hcur : s₁.sched.currentThread = s.sched.currentThread := hlists.currentThread
  have hnobody : s₁.sched.readyList = [] ↔ s.NobodyReady := by
    rw [hready]
    simp only [List.mem_finRange, true_implies]
    rfl
  rw [← hnobody]
  cases hr : s₁.sched.readyList with
  | nil =>
    rw [hr] at h
    obtain ⟨sched, hfin, h⟩ := Option.bind_eq_some_iff.1 h
    cases h
    refine iff_of_true ?_ rfl
    have hended := ended_of_finish (by rw [hcur]; exact haside₁.2) hfin
    have hdel : s₁.sched.deleted = s.sched.deleted := hlists.deleted
    obtain ⟨h1, h2, h3, h4, h5, h6⟩ := hended
    rw [hcur] at h1 h2 h3 h4 h5 h6
    rw [hdel] at h3 h4
    rw [ht, htu] at h5
    rw [hm, hsu] at h6
    exact ⟨h1, h2, h3, h4, h5, h6⟩
  | cons n rest =>
    rw [hr] at h
    cases h
    refine iff_of_false (fun hended => ?_) (by simp)
    have hstatus := hended.status
    rw [switched_sched] at hstatus
    exact hstatus (haside₁.run hr).1

/-- Thread 1 runs, with the tables it shares with the main thread; `sched` says what the main
thread does. -/
def firstExit (sched : Sched) : Exiting where
  sched := sched
  execFiles _ := none
  execFilesMap := ⟨fun _ => 0⟩
  mytable _ := 0
  mySems _ := 0
  tableUsage _ := 2
  semsUsage _ := 2

theorem firstExit_signals (sched : Sched) (ind : Fin ExecTableSize) (sem : ℕ) :
    ¬ (firstExit sched).Signals ind sem := by
  rintro ⟨hbit, -⟩
  simp [firstExit, BitMap.isSet] at hbit

end Exiting

/-- The main thread waits on a semaphore, and a handler signals it when thread 1 has exited. -/
theorem exit_ends_alone : ∃ s s' : Exiting, s.nachosExit [[3]] = some s' ∧ s.NobodyReady ∧
    Exiting.Ended s s' ∧ s'.tableUsage 0 = 1 := by
  obtain ⟨sched, hreach, hcur, hready, hexit⟩ : ∃ sched, SchedReach sched ∧
      sched.currentThread = 1 ∧ sched.readyList = [] ∧
      ((Exiting.firstExit sched).nachosExit [[3]]).any (fun s' => s'.tableUsage 0 == 1) = true :=
    Transition.Reach.exists_run (fun _ _ _ => Operation.exec_step) (.init mainThread_init)
      [.fork 1, .semP 3 []] (by decide +kernel)
  obtain ⟨s', hs', husage⟩ := Option.any_eq_true _ _ |>.1 hexit
  obtain ⟨hrun, -, hu⟩ := hreach.placed.running _ rfl
  have hnobody : (Exiting.firstExit sched).NobodyReady :=
    ⟨hready, fun ind sem hs => absurd hs (Exiting.firstExit_signals sched ind sem)⟩
  exact ⟨_, s', hs', hnobody, (Exiting.exit_ends_iff hrun hu hs').2 hnobody,
    beq_iff_eq.1 husage⟩

/-- Thread 1 exits while the main thread is ready: it stays `RUNNING`, nothing is to be deleted,
and its tables keep their two users. -/
theorem exit_leaves_running : ∃ sched, SchedReach sched ∧ sched.currentThread = 1 ∧
    ∃ s', (Exiting.firstExit sched).nachosExit [] = some s' ∧ s'.sched.currentThread = 0 ∧
      s'.sched.status 1 = .RUNNING ∧ s'.sched.threadToBeDestroyed = none ∧
      s'.sched.deleted = [] ∧ s'.tableUsage 0 = 2 ∧ ¬ Exiting.Ended (.firstExit sched) s' := by
  obtain ⟨sched, hreach, hcur, hexit⟩ : ∃ sched, SchedReach sched ∧ sched.currentThread = 1 ∧
      ((Exiting.firstExit sched).nachosExit []).any (fun s' => s'.sched.currentThread == 0 &&
        s'.sched.status 1 == .RUNNING && s'.sched.threadToBeDestroyed == none &&
        s'.sched.deleted == [] && s'.tableUsage 0 == 2) = true :=
    Transition.Reach.exists_run (fun _ _ _ => Operation.exec_step) (.init mainThread_init)
      [.fork 1, .yield] (by decide +kernel)
  obtain ⟨s', hs', hall⟩ := Option.any_eq_true _ _ |>.1 hexit
  simp only [Bool.and_eq_true, beq_iff_eq] at hall
  obtain ⟨⟨⟨⟨h1, h2⟩, h3⟩, h4⟩, h5⟩ := hall
  refine ⟨sched, hreach, hcur, s', hs', h1, h2, h3, h4, h5, fun hended => ?_⟩
  have hstatus := hended.status
  rw [show (Exiting.firstExit sched).sched.currentThread = 1 from hcur] at hstatus
  exact hstatus h2

end Nachos
