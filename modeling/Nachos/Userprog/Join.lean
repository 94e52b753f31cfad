import Nachos.Machine.BitMap
import Nachos.Lib.Transition
import Nachos.Lib.Update

/-!
# `Exec`, `Exit` and `Join`

The table `execFiles` of `userprog/exception.cc` and the system calls that work on it, by any number
of threads in any order.

* A step is a stretch of kernel code in which no other thread can run: `Nachos_Exec` and
  `Nachos_Exit` are one step each (the loop of `Nachos_Exit` runs with interrupts disabled),
  `Nachos_Join` is three: up to `P`, the return of `P`, and the end.
* Threads and semaphores have numbers that are never used again.  `P` returns when the value is
  positive.
* A pointer that was never set or was deleted is `none`; a step that would follow it is not taken.
-/

namespace Nachos

open Function Transition Update

/-- The size of the table. -/
abbrev ExecTableSize : ℕ := 128

/-- `struct joinS`; a thread is its number, a semaphore too. -/
structure JoinS where
  threadId : ℕ
  fileName : String
  s : Option ℕ
  deriving DecidableEq, Repr

/-- Where a thread is. -/
inductive ThreadPlace
  | unborn
  -- in a user program: it may make any system call
  | user
  -- made by `Exec` for the slot, and not started
  | execThread (slot : Fin ExecTableSize)
  -- in `joinSem->P()` of `Join(id)`: `Test(id)` held, for the process `proc`, and `sem` is new
  | joinWait (id : Fin ExecTableSize) (sem proc : ℕ)
  -- `P` has returned
  | joinEnd (id : Fin ExecTableSize) (sem proc : ℕ)
  | ended
  deriving DecidableEq, Repr

/-- One turn of the loop of `Nachos_Exit`, for the thread `t`, in a state `s` with this table: the
`signal` of a joiner, or the slot `freed`.  A pointer that was deleted is `none`. -/
def exitSlotOf {σ : Type} (execFiles : Fin ExecTableSize → Option JoinS)
    (execFilesMap : BitMap ExecTableSize) (t : ℕ) (signal : ℕ → σ) (freed s : σ)
    (ind : Fin ExecTableSize) : Option σ :=
  if execFilesMap.isSet ind then
    match execFiles ind with
    | none => none
    | some e =>
      if t = e.threadId then
        match e.s with
        | some sem => some (signal sem)
        | none => some freed
      else some s
  else some s

/-- The table, the join semaphores and the threads. -/
structure Processes where
  execFiles : Fin ExecTableSize → Option JoinS
  execFilesMap : BitMap ExecTableSize
  -- the values of the semaphores made so far, and their number
  sems : ℕ → ℕ
  numSems : ℕ
  threads : ℕ → ThreadPlace
  numThreads : ℕ

namespace Processes

/-- The thread `t` goes on at `p`. -/
@[simp] def goto (t : ℕ) (p : ThreadPlace) (s : Processes) : Processes :=
  { s with threads := update s.threads t p }

section goto

variable {s : Processes} {t t' : ℕ} {p q : ThreadPlace}

theorem goto_threads_self : (s.goto t p).threads t = p := update_self ..

theorem goto_threads_of_ne (h : t' ≠ t) : (s.goto t p).threads t' = s.threads t' :=
  update_of_ne h ..

theorem of_goto_threads (hq : q ≠ p) (h : (s.goto t p).threads t' = q) : s.threads t' = q :=
  (of_update_eq h hq.symm).2

/-- What has ended stays so when another thread goes on. -/
theorem goto_ended (ht : s.threads t ≠ .ended) (h : s.threads t' = .ended) :
    (s.goto t p).threads t' = .ended :=
  update_eq_of h ht

theorem goto_threads_ended (h : s.threads t = .ended ↔ p = .ended) :
    (s.goto t p).threads t' = .ended ↔ s.threads t' = .ended := by
  by_cases ht : t' = t
  · subst ht
    rw [goto_threads_self, h]
  · rw [goto_threads_of_ne ht]

end goto

/-- `delete execFiles[id]; execFilesMap->Clear(id)`. -/
def freeSlot (id : Fin ExecTableSize) (s : Processes) : Processes :=
  { s with
    execFiles := update s.execFiles id none
    execFilesMap := s.execFilesMap.clearBit id }

/-- `V` on the semaphore `sem`. -/
def signal (sem : ℕ) (s : Processes) : Processes :=
  { s with sems := update s.sems sem (s.sems sem + 1) }

/-- One turn of the loop of `Nachos_Exit`, for the thread `t`. -/
def exitSlot (t : ℕ) (s : Processes) (ind : Fin ExecTableSize) : Option Processes :=
  exitSlotOf s.execFiles s.execFilesMap t (fun sem => s.signal sem) (s.freeSlot ind) s ind

/-- The loop of `Nachos_Exit`. -/
def exitLoop (t : ℕ) (s : Processes) : Option Processes :=
  (List.finRange ExecTableSize).foldlM (exitSlot t) s

/-- `Nachos_Exec` by a thread that stays in its program; the new thread is `numThreads`. -/
def exec (fileName : String) (s : Processes) : Processes :=
  match s.execFilesMap.find with
  | (none, _) => s
  | (some fileToExec, execFilesMap) =>
    { s with
      execFiles := update s.execFiles fileToExec
        (some { threadId := s.numThreads, fileName := fileName, s := none })
      execFilesMap := execFilesMap
      threads := update s.threads s.numThreads (.execThread fileToExec)
      numThreads := s.numThreads + 1 }

/-- A new thread in a user program, as `Nachos_Fork` makes it. -/
def fork (s : Processes) : Processes :=
  { s.goto s.numThreads .user with numThreads := s.numThreads + 1 }

/-- `execFiles[id]->s = joinSem`, with a new semaphore, for the entry `e` of the slot; the thread
`t` is in `joinSem->P()`. -/
def join (t : ℕ) (id : Fin ExecTableSize) (e : JoinS) (s : Processes) : Processes :=
  { s.goto t (.joinWait id s.numSems e.threadId) with
    sems := update s.sems s.numSems 0
    numSems := s.numSems + 1
    execFiles := update s.execFiles id (some { e with s := some s.numSems }) }

/-- `P` returns. -/
def wake (t : ℕ) (id : Fin ExecTableSize) (sem proc : ℕ) (s : Processes) : Processes :=
  { s.goto t (.joinEnd id sem proc) with
    sems := update s.sems sem (s.sems sem - 1) }

end Processes

/-- The system calls and their parts. -/
inductive Call
  | exec (t : ℕ) (fileName : String)
  | fork (t : ℕ)
  | start (t : ℕ)
  | exit (t : ℕ)
  | join (t : ℕ) (id : Fin ExecTableSize)
  | wake (t : ℕ)
  | finish (t : ℕ)
  deriving DecidableEq, Repr

/-- Perform a part of a system call, if the thread is there; `canOpen` are the names that
`fileSystem->Open` finds. -/
def Call.perform (canOpen : String → Bool) (s : Processes) : Call → Option Processes
  | .exec t fileName => if s.threads t = .user then some (s.exec fileName) else none
  | .fork t => if s.threads t = .user then some s.fork else none
  -- `NachosExecThread`
  | .start t =>
    match s.threads t with
    | .execThread slot =>
      (s.execFiles slot).map fun info =>
        if canOpen info.fileName then s.goto t .user else s.goto t .ended
    | _ => none
  | .exit t =>
    if s.threads t = .user then (s.exitLoop t).map fun s => s.goto t .ended else none
  -- `Nachos_Join` up to `P`
  | .join t id =>
    if s.threads t = .user then
      if s.execFilesMap.isSet id then (s.execFiles id).map fun e => s.join t id e
      else some s
    else none
  | .wake t =>
    match s.threads t with
    | .joinWait id sem proc =>
      if 0 < s.sems sem then some (s.wake t id sem proc) else none
    | _ => none
  | .finish t =>
    match s.threads t with
    | .joinEnd id _ _ => (s.execFiles id).map fun _ => (s.freeSlot id).goto t .user
    | _ => none

variable (canOpen : String → Bool)

/-- One step. -/
def CallStep (s : Processes) (c : Call) (s' : Processes) : Prop := c.perform canOpen s = some s'

/-- One thread runs a user program, and the table is empty. -/
def ProcessesInit (s : Processes) : Prop :=
  ∃ words, s =
    { execFiles := fun _ => none
      execFilesMap := .new _ words
      sems := fun _ => 0
      numSems := 0
      threads := fun t => if t = 0 then .user else .unborn
      numThreads := 1 }

variable {canOpen} in
/-- What a step can be. -/
theorem CallStep.inversion {s s' : Processes} {c : Call} {P : Call → Processes → Prop}
    (h : CallStep canOpen s c s')
    (exec : ∀ t fileName, s.threads t = .user → P (.exec t fileName) (s.exec fileName))
    (fork : ∀ t, s.threads t = .user → P (.fork t) s.fork)
    (start : ∀ t slot info, s.threads t = .execThread slot → s.execFiles slot = some info →
      P (.start t) (if canOpen info.fileName then s.goto t .user else s.goto t .ended))
    (exit : ∀ t s₁, s.threads t = .user → s.exitLoop t = some s₁ →
      P (.exit t) (s₁.goto t .ended))
    (join : ∀ t (id : Fin ExecTableSize) e, s.threads t = .user →
      s.execFilesMap.isSet id = true → s.execFiles id = some e → P (.join t id) (s.join t id e))
    (invalid : ∀ t id, P (.join t id) s)
    (wake : ∀ t id sem proc, s.threads t = .joinWait id sem proc → 0 < s.sems sem →
      P (.wake t) (s.wake t id sem proc))
    (finish : ∀ t id sem proc, s.threads t = .joinEnd id sem proc →
      P (.finish t) ((s.freeSlot id).goto t .user)) : P c s' := by
  unfold CallStep at h
  cases c with
  | exec t fileName =>
    simp only [Call.perform] at h
    split_ifs at h with ht
    cases h
    exact exec t fileName ht
  | fork t =>
    simp only [Call.perform] at h
    split_ifs at h with ht
    cases h
    exact fork t ht
  | start t =>
    simp only [Call.perform] at h
    split at h
    next slot ht =>
      obtain ⟨info, hinfo, rfl⟩ := Option.map_eq_some_iff.1 h
      exact start t slot info ht hinfo
    next => cases h
  | exit t =>
    simp only [Call.perform] at h
    split_ifs at h with ht
    obtain ⟨s₁, hex, rfl⟩ := Option.map_eq_some_iff.1 h
    exact exit t s₁ ht hex
  | join t id =>
    simp only [Call.perform] at h
    split_ifs at h with ht hset
    · obtain ⟨e, he, rfl⟩ := Option.map_eq_some_iff.1 h
      exact join t id e ht hset he
    · cases h
      exact invalid t id
  | wake t =>
    simp only [Call.perform] at h
    split at h
    next id sem proc ht =>
      split_ifs at h with hpos
      cases h
      exact wake t id sem proc ht hpos
    next => cases h
  | finish t =>
    simp only [Call.perform] at h
    split at h
    next id sem proc ht =>
      obtain ⟨e, -, rfl⟩ := Option.map_eq_some_iff.1 h
      exact finish t id sem proc ht
    next => cases h

/-- The states of all runs. -/
def ProcessesReach (s : Processes) : Prop :=
  Reach ProcessesInit (CallStep canOpen) s

/-- Some continuation makes the value of the semaphore positive. -/
def CanSignal (s : Processes) (sem : ℕ) : Prop :=
  ∃ s', Reach (· = s) (CallStep canOpen) s' ∧ s'.sems sem ≠ 0

/-- Thread `t` joined a process that has ended, and waits for a signal that cannot come. -/
def Stranded (s : Processes) (t : ℕ) : Prop :=
  ∃ id sem proc, s.threads t = .joinWait id sem proc ∧ s.threads proc = .ended ∧
    s.sems sem = 0 ∧ ¬ CanSignal canOpen s sem

/-! ### Steps that strand nobody -/

/-- `Join` finds a process that has not ended and that nobody has joined; a process whose file
cannot be opened has not been joined. -/
def CallSafe (s : Processes) : Call → Prop
  | .join _ id => s.execFilesMap.isSet id = true →
    ∀ e ∈ s.execFiles id, e.s = none ∧ s.threads e.threadId ≠ .ended
  | .start t =>
    match s.threads t with
    | .execThread slot => ∀ info ∈ s.execFiles slot, canOpen info.fileName = false → info.s = none
    | _ => True
  | _ => True

/-- The states of the runs all of whose steps are safe. -/
def SafeReach (s : Processes) : Prop :=
  Reach ProcessesInit (fun s c s' => CallStep canOpen s c s' ∧ CallSafe canOpen s c) s

/-- The semaphore of a thread in `Join`. -/
def ThreadPlace.sem : ThreadPlace → Option ℕ
  | .joinWait _ sem _ | .joinEnd _ sem _ => some sem
  | _ => none

/-- The slot, the semaphore and the process of a thread in `Join`. -/
@[simp] def ThreadPlace.Joins (id : Fin ExecTableSize) (sem proc : ℕ) (p : ThreadPlace) : Prop :=
  p = .joinWait id sem proc ∨ p = .joinEnd id sem proc

/-- What the table says: the map, the threads of the entries, and their semaphores. -/
structure TableInv (s : Processes) : Prop where
  map : ∀ id : Fin ExecTableSize, s.execFilesMap.isSet id = true ↔ s.execFiles id ≠ none
  known : ∀ id e, s.execFiles id = some e → e.threadId < s.numThreads
  once : ∀ id id' e e', s.execFiles id = some e → s.execFiles id' = some e' →
    e.threadId = e'.threadId → id = id'
  slotMade : ∀ id e sem, s.execFiles id = some e → e.s = some sem → sem < s.numSems
  slotOwn : ∀ id id' e e' sem, s.execFiles id = some e → s.execFiles id' = some e' →
    e.s = some sem → e'.s = some sem → id = id'

/-- The threads that have been made, and the semaphores of those in `Join`. -/
structure ThreadsInv (s : Processes) : Prop where
  unborn : ∀ t, s.numThreads ≤ t → s.threads t = .unborn
  made : ∀ t sem, (s.threads t).sem = some sem → sem < s.numSems
  own : ∀ t t' sem, (s.threads t).sem = some sem → (s.threads t').sem = some sem → t = t'

/-- What holds as long as nobody joins a process that has been joined. -/
structure JoinInv (s : Processes) : Prop extends TableInv s, ThreadsInv s where
  exec : ∀ t slot, s.threads t = .execThread slot →
    ∃ e, s.execFiles slot = some e ∧ e.threadId = t
  joined : ∀ t id sem proc, (s.threads t).Joins id sem proc →
    ∃ e, s.execFiles id = some e ∧ e.threadId = proc ∧ e.s = some sem
  signalled : ∀ t id sem proc, s.threads t = .joinWait id sem proc → 0 < s.sems sem →
    s.threads proc = .ended
  finished : ∀ t id sem proc, s.threads t = .joinEnd id sem proc → s.threads proc = .ended

/-! ### The table -/

open Processes

section Table

variable {s s' : Processes} {t : ℕ} {id : Fin ExecTableSize}

/-- A slot gets an entry for a thread that is in no other slot, with no semaphore or a new one. -/
theorem TableInv.setSlot (h : TableInv s) {e : JoinS}
    (hfiles : s'.execFiles = update s.execFiles id (some e))
    (hmap : ∀ id' : Fin ExecTableSize, s'.execFilesMap.isSet id' = true ↔
      id' = id ∨ s.execFilesMap.isSet id' = true)
    (hthreads : s'.numThreads = s.numThreads) (hsems : s.numSems ≤ s'.numSems)
    (hknown : e.threadId < s.numThreads)
    (hfresh : ∀ id' e', id' ≠ id → s.execFiles id' = some e' → e'.threadId ≠ e.threadId)
    (hnew : ∀ sem, e.s = some sem → s.numSems ≤ sem ∧ sem < s'.numSems) : TableInv s' := by
  have hslot : ∀ id' e', s'.execFiles id' = some e' →
      id' = id ∧ e' = e ∨ id' ≠ id ∧ s.execFiles id' = some e' := by
    intro id' e' he'
    rw [hfiles] at he'
    exact (update_cases he').imp_left fun ⟨hid, he⟩ => ⟨hid, Option.some.inj he⟩
  constructor
  · intro id'
    rw [hmap id', hfiles, h.map id']
    by_cases hid : id' = id
    · subst hid
      simp
    · simp [hid]
  · intro id' e' he'
    rw [hthreads]
    rcases hslot id' e' he' with ⟨-, rfl⟩ | ⟨-, he₀⟩
    · exact hknown
    · exact h.known id' e' he₀
  · intro id₁ id₂ e₁ e₂ h₁ h₂ heq
    rcases hslot id₁ e₁ h₁ with ⟨rfl, rfl⟩ | ⟨hid₁, h₁'⟩ <;>
      rcases hslot id₂ e₂ h₂ with ⟨rfl, rfl⟩ | ⟨hid₂, h₂'⟩
    · rfl
    · exact absurd heq.symm (hfresh id₂ e₂ hid₂ h₂')
    · exact absurd heq (hfresh id₁ e₁ hid₁ h₁')
    · exact h.once id₁ id₂ e₁ e₂ h₁' h₂' heq
  · intro id' e' sem he' hs
    rcases hslot id' e' he' with ⟨-, rfl⟩ | ⟨-, he₀⟩
    · exact (hnew sem hs).2
    · exact Nat.lt_of_lt_of_le (h.slotMade id' e' sem he₀ hs) hsems
  · intro id₁ id₂ e₁ e₂ sem h₁ h₂ hs₁ hs₂
    rcases hslot id₁ e₁ h₁ with ⟨rfl, rfl⟩ | ⟨-, h₁'⟩ <;>
      rcases hslot id₂ e₂ h₂ with ⟨rfl, rfl⟩ | ⟨-, h₂'⟩
    · rfl
    · exact absurd (h.slotMade id₂ e₂ sem h₂' hs₂) (Nat.not_lt.2 (hnew sem hs₁).1)
    · exact absurd (h.slotMade id₁ e₁ sem h₁' hs₁) (Nat.not_lt.2 (hnew sem hs₂).1)
    · exact h.slotOwn id₁ id₂ e₁ e₂ sem h₁' h₂' hs₁ hs₂

/-- A slot is freed. -/
theorem TableInv.freeSlot (h : TableInv s) (id : Fin ExecTableSize) :
    TableInv (s.freeSlot id) := by
  have hold : ∀ {id' e}, (s.freeSlot id).execFiles id' = some e → s.execFiles id' = some e :=
    fun he => (of_update_eq he (by simp)).2
  refine ⟨fun id' => ?_, fun id' e he => h.known id' e (hold he),
    fun id₁ id₂ e₁ e₂ h₁ h₂ => h.once id₁ id₂ e₁ e₂ (hold h₁) (hold h₂),
    fun id' e sem he => h.slotMade id' e sem (hold he),
    fun id₁ id₂ e₁ e₂ sem h₁ h₂ => h.slotOwn id₁ id₂ e₁ e₂ sem (hold h₁) (hold h₂)⟩
  by_cases hid : id' = id
  · subst hid
    simp [Processes.freeSlot]
  · have hne : (id : ℕ) ≠ id' := fun he => hid (Fin.ext he.symm)
    simp only [Processes.freeSlot, update_of_ne hid, ← h.map id']
    simp [hne]

/-- The slots of other threads are left alone by the loop of `Nachos_Exit`. -/
theorem TableInv.exitSlots_other (h : TableInv s) {l : List (Fin ExecTableSize)}
    (hne : ∀ ind ∈ l, ∀ e, s.execFiles ind = some e → e.threadId ≠ t) :
    l.foldlM (Processes.exitSlot t) s = some s := by
  induction l with
  | nil => rfl
  | cons ind l ih =>
    rw [List.forall_mem_cons] at hne
    have hone : s.exitSlot t ind = some s := by
      unfold Processes.exitSlot exitSlotOf
      split_ifs with hset
      · obtain ⟨e, he⟩ := Option.ne_none_iff_exists'.1 ((h.map ind).1 hset)
        simp only [he, if_neg (Ne.symm (hne.1 e he))]
      · rfl
    rw [List.foldlM_cons, hone]
    exact ih hne.2

/-- What the loop of `Nachos_Exit` does: nothing for a thread that is in no slot; otherwise it
signals the joiner, or frees the slot if there is none. -/
theorem TableInv.exitLoop_cases (h : TableInv s) (hex : s.exitLoop t = some s') :
    (s' = s ∧ ∀ id e, s.execFiles id = some e → e.threadId ≠ t) ∨
    ∃ id e, s.execFiles id = some e ∧ e.threadId = t ∧
      (e.s = none ∧ s' = s.freeSlot id ∨ ∃ sem, e.s = some sem ∧ s' = s.signal sem) := by
  by_cases hslot : ∃ id e, s.execFiles id = some e ∧ e.threadId = t
  · obtain ⟨id, e, he, het⟩ := hslot
    refine Or.inr ⟨id, e, he, het, ?_⟩
    have honly : ∀ ind, ind ≠ id → ∀ e', s.execFiles ind = some e' → e'.threadId ≠ t := by
      intro ind hind e' he' het'
      exact hind (h.once ind id e' e he' he (het'.trans het.symm))
    have hset := (h.map id).2 (by rw [he]; simp)
    -- the turns before and after the one for `id` do nothing
    obtain ⟨l₁, l₂, hl⟩ := List.append_of_mem (List.mem_finRange id)
    have hnodup : (l₁ ++ id :: l₂).Nodup := hl ▸ List.nodup_finRange ExecTableSize
    have hnot : id ∉ l₁ ∧ id ∉ l₂ := by
      simp only [List.nodup_middle, List.nodup_cons, List.mem_append, not_or] at hnodup
      exact hnodup.1
    have hne₂ : ∀ ind ∈ l₂, ind ≠ id := by
      rintro ind hind rfl
      exact hnot.2 hind
    have h₁ : l₁.foldlM (Processes.exitSlot t) s = some s :=
      h.exitSlots_other fun ind hind => honly ind (by rintro rfl; exact hnot.1 hind)
    have hafter (s₁ : Processes) (hone : s.exitSlot t id = some s₁) (hs₁ : TableInv s₁)
        (hfiles : ∀ ind, ind ≠ id → s₁.execFiles ind = s.execFiles ind) : s' = s₁ := by
      have h₂ := hs₁.exitSlots_other (t := t) (l := l₂) fun ind hind e' he' =>
        honly ind (hne₂ ind hind) e' ((hfiles ind (hne₂ ind hind)).symm.trans he')
      rw [Processes.exitLoop, hl, List.foldlM_append, h₁, Option.bind_eq_bind, Option.bind_some,
        List.foldlM_cons, hone, Option.bind_eq_bind, Option.bind_some, h₂] at hex
      exact (Option.some.inj hex).symm
    cases hes : e.s with
    | some sem =>
      refine Or.inr ⟨sem, rfl, hafter _ ?_ { h with } fun _ _ => rfl⟩
      simp [Processes.exitSlot, exitSlotOf, hset, he, het, hes]
    | none =>
      refine Or.inl ⟨rfl, hafter _ ?_ (h.freeSlot id) fun _ hind => update_of_ne hind ..⟩
      simp [Processes.exitSlot, exitSlotOf, hset, he, het, hes]
  · have h₀ : s.exitLoop t = some s :=
      h.exitSlots_other fun ind _ e he het => hslot ⟨ind, e, he, het⟩
    rw [h₀] at hex
    cases hex
    exact Or.inl ⟨rfl, fun id e he het => hslot ⟨id, e, he, het⟩⟩

end Table

/-! ### The threads -/

section Threads

variable {s : Processes} {t t' : ℕ} {p : ThreadPlace}

theorem ThreadsInv.lt_numThreads (h : ThreadsInv s) (ht : s.threads t ≠ .unborn) :
    t < s.numThreads := by
  by_contra hle
  exact ht (h.unborn t (Nat.le_of_not_lt hle))

theorem ThreadsInv.goto_unborn (h : ThreadsInv s) (hlt : t < s.numThreads)
    (ht' : s.numThreads ≤ t') : (s.goto t p).threads t' = .unborn := by
  have hne : t' ≠ t := by
    rintro rfl
    exact absurd ht' (Nat.not_le.2 hlt)
  rw [goto_threads_of_ne hne]
  exact h.unborn t' ht'

/-- A thread goes on, with its semaphore or without. -/
theorem ThreadsInv.goto (h : ThreadsInv s) (hlt : t < s.numThreads)
    (hp : ∀ sem, p.sem = some sem → (s.threads t).sem = some sem) : ThreadsInv (s.goto t p) := by
  have hsem : ∀ {t' sem}, ((s.goto t p).threads t').sem = some sem →
      (s.threads t').sem = some sem := by
    intro t' sem hs
    by_cases htt : t' = t
    · subst htt
      rw [goto_threads_self] at hs
      exact hp sem hs
    · rwa [goto_threads_of_ne htt] at hs
  exact ⟨fun t' => h.goto_unborn hlt, fun t' sem hs => h.made t' sem (hsem hs),
    fun t₁ t₂ sem h₁ h₂ => h.own t₁ t₂ sem (hsem h₁) (hsem h₂)⟩

end Threads

theorem joinInv_init {s : Processes} (h : ProcessesInit s) : JoinInv s := by
  obtain ⟨words, rfl⟩ := h
  have hsem : ∀ t, (if t = 0 then ThreadPlace.user else .unborn).sem = none := by
    intro t
    split_ifs <;> rfl
  refine ⟨⟨?_, by simp, by simp, by simp, by simp⟩, ⟨?_, by simp [hsem], by simp [hsem]⟩,
    ?_, ?_, ?_, ?_⟩
  · intro id
    simp [BitMap.isSet_new words id.isLt]
  · intro t ht
    simp only at ht
    exact if_neg (by omega)
  all_goals
    intro t
    by_cases ht : t = 0 <;> simp [ht]

section Steps

variable {s s' : Processes} {t sem proc : ℕ} {id : Fin ExecTableSize} {e : JoinS} (h : JoinInv s)
include h

/-- A slot without semaphore has not been joined. -/
theorem JoinInv.not_joins (he : s.execFiles id = some e) (hs : e.s = none) (t : ℕ)
    (id' : Fin ExecTableSize) (sem : ℕ) : ¬ (s.threads t).Joins id' sem e.threadId := by
  intro hj
  obtain ⟨e', he', ht, hs'⟩ := h.joined t id' sem e.threadId hj
  obtain rfl := h.once id id' e e' he he' ht.symm
  rw [he] at he'
  cases he'
  rw [hs] at hs'
  cases hs'

/-- A thread that has not ended goes to a place outside `Join`. -/
theorem JoinInv.move {p : ThreadPlace} (hlt : t < s.numThreads) (ht : s.threads t ≠ .ended)
    (hp : p.sem = none) (hexec : ∀ slot, p ≠ .execThread slot) : JoinInv (s.goto t p) := by
  have hwait : ∀ {t' id sem proc}, (s.goto t p).threads t' = .joinWait id sem proc →
      s.threads t' = .joinWait id sem proc :=
    of_goto_threads (by rintro rfl; cases hp)
  have hfin : ∀ {t' id sem proc}, (s.goto t p).threads t' = .joinEnd id sem proc →
      s.threads t' = .joinEnd id sem proc :=
    of_goto_threads (by rintro rfl; cases hp)
  exact { h.goto hlt (by simp [hp]), h with
    exec := fun t' slot hs =>
      h.exec t' slot (of_goto_threads (Ne.symm (hexec slot)) hs)
    joined := fun t' id sem proc hj => h.joined t' id sem proc (hj.imp hwait hfin)
    signalled := fun t' id sem proc hj hpos =>
      goto_ended ht (h.signalled t' id sem proc (hwait hj) hpos)
    finished := fun t' id sem proc hj =>
      goto_ended ht (h.finished t' id sem proc (hfin hj)) }

/-- A slot is freed when no thread needs it any more. -/
theorem JoinInv.freeSlot_step (hexec : ∀ t, s.threads t ≠ .execThread id)
    (hjoin : ∀ t sem proc, ¬ (s.threads t).Joins id sem proc) : JoinInv (s.freeSlot id) := by
  refine { h.freeSlot id, h with
    exec := fun t slot ht => ?_
    joined := fun t id' sem proc hj => ?_ }
  · obtain ⟨e, he, het⟩ := h.exec t slot ht
    exact ⟨e, (update_of_ne (by rintro rfl; exact hexec t ht) ..).trans he, het⟩
  · obtain ⟨e, he, het⟩ := h.joined t id' sem proc hj
    exact ⟨e, (update_of_ne (by rintro rfl; exact hjoin t sem proc hj) ..).trans he, het⟩

/-- A thread is born. -/
theorem JoinInv.fork_step : JoinInv s.fork := by
  have hnew := h.unborn s.numThreads (Nat.le_refl _)
  have hbefore : JoinInv { s with numThreads := s.numThreads + 1 } :=
    { h with
      unborn := fun t ht => h.unborn t (Nat.le_of_succ_le ht)
      known := fun id e he => Nat.lt_succ_of_lt (h.known id e he) }
  exact hbefore.move (p := .user) (Nat.lt_succ_self _) (by simp [hnew]) rfl (by simp)

/-- A new thread is entered in a free slot. -/
theorem JoinInv.register {f : Fin ExecTableSize} (fileName : String)
    (ht : s.threads t = .user) (hfree : s.execFiles f = none)
    (hfresh : ∀ id e, s.execFiles id = some e → e.threadId ≠ t) :
    JoinInv { s.goto t (.execThread f) with
      execFiles := update s.execFiles f (some ⟨t, fileName, none⟩)
      execFilesMap := s.execFilesMap.setBit f } := by
  have hlt : t < s.numThreads := h.lt_numThreads (by rw [ht]; simp)
  have htable : TableInv { s.goto t (.execThread f) with
      execFiles := update s.execFiles f (some ⟨t, fileName, none⟩)
      execFilesMap := s.execFilesMap.setBit f } := by
    refine h.setSlot rfl (fun id => ?_) rfl (Nat.le_refl _) hlt (fun id e _ he => hfresh id e he)
      (by simp)
    by_cases hid : id = f
    · simp [hid]
    · have hne : (f : ℕ) ≠ id := fun he => hid (Fin.ext he.symm)
      simp [hid, hne]
  have hkeep : ∀ id e, s.execFiles id = some e →
      update s.execFiles f (some ⟨t, fileName, none⟩) id = some e :=
    fun id e he => update_eq_of he (by simp [hfree])
  refine { htable, h.goto (p := .execThread f) hlt (by simp [ThreadPlace.sem]) with
    exec := fun t' slot ht' => ?_
    joined := fun t' id sem proc hj => ?_
    signalled := fun t' id sem proc ht' hpos => goto_ended (by simp [ht])
      (h.signalled t' id sem proc (of_goto_threads (by simp) ht') hpos)
    finished := fun t' id sem proc ht' => goto_ended (by simp [ht])
      (h.finished t' id sem proc (of_goto_threads (by simp) ht')) }
  · rcases update_cases ht' with ⟨rfl, hp⟩ | ⟨-, ht'⟩
    · cases hp
      exact ⟨_, update_self .., rfl⟩
    · obtain ⟨e, he, het⟩ := h.exec t' slot ht'
      exact ⟨e, hkeep slot e he, het⟩
  · obtain ⟨e, he, het⟩ := h.joined t' id sem proc
      (hj.imp (of_goto_threads (by simp)) (of_goto_threads (by simp)))
    exact ⟨e, hkeep id e he, het⟩

theorem JoinInv.find_free {f : Fin ExecTableSize} {m : BitMap ExecTableSize}
    (hf : s.execFilesMap.find = (some f, m)) : s.execFiles f = none := by
  by_contra hne
  have hclear := (BitMap.find_some hf).1
  rw [(h.map f).2 hne] at hclear
  cases hclear

/-- `Nachos_Exec`. -/
theorem JoinInv.exec_step (fileName : String) : JoinInv (s.exec fileName) := by
  unfold Processes.exec
  rcases hf : s.execFilesMap.find with ⟨_ | f, m⟩
  · exact h
  have hfree := h.find_free hf
  obtain ⟨-, -, rfl⟩ := BitMap.find_some hf
  have hreg := h.fork_step.register (t := s.numThreads) (f := f) fileName
    (by simp [Processes.fork]) hfree (fun id e he => (h.known id e he).ne)
  simpa only [Processes.fork, Processes.goto, update_idem] using hreg

/-- A process has ended, and signals the semaphore stored in its slot. -/
theorem JoinInv.signal_step (he : s.execFiles id = some e) (hes : e.s = some sem)
    (hend : s.threads e.threadId = .ended) : JoinInv (s.signal sem) := by
  refine { h with signalled := fun t id' k proc ht hpos => ?_ }
  by_cases hk : k = sem
  · subst hk
    obtain ⟨e', he', rfl, hes'⟩ := h.joined t id' k proc (Or.inl ht)
    obtain rfl := h.slotOwn id id' e e' k he he' hes hes'
    rw [he] at he'
    cases he'
    exact hend
  · simp only [Processes.signal, update_of_ne hk] at hpos
    exact h.signalled t id' k proc ht hpos

/-- **`Nachos_Exit`**: a thread that is in no slot only ends; the joiner of a thread in a slot is
signalled, or the slot is freed if there is none. -/
theorem JoinInv.exit_step (ht : s.threads t = .user) (hex : s.exitLoop t = some s') :
    JoinInv (s'.goto t .ended) := by
  have hlt : t < s.numThreads := h.lt_numThreads (by rw [ht]; simp)
  have hne : s.threads t ≠ .ended := by simp [ht]
  rcases h.exitLoop_cases hex with ⟨rfl, -⟩ | ⟨id, e, he, rfl, ⟨hes, rfl⟩ | ⟨sem, hes, rfl⟩⟩
  · exact h.move hlt hne rfl (by simp)
  · have hfree : JoinInv (s.freeSlot id) := by
      refine h.freeSlot_step (fun t' ht' => ?_) (fun t' sem proc hj => ?_)
      · obtain ⟨e', he', rfl⟩ := h.exec t' id ht'
        rw [he] at he'
        cases he'
        rw [ht] at ht'
        cases ht'
      · obtain ⟨e', he', -, hes'⟩ := h.joined t' id sem proc hj
        rw [he] at he'
        cases he'
        rw [hes] at hes'
        cases hes'
    exact hfree.move hlt hne rfl (by simp)
  · have hmoved : JoinInv (s.goto e.threadId .ended) := h.move hlt hne rfl (by simp)
    exact hmoved.signal_step he hes goto_threads_self

/-- `Nachos_Join` up to `P`, for a process that nobody has joined. -/
theorem JoinInv.join_step (ht : s.threads t = .user) (he : s.execFiles id = some e)
    (hes : e.s = none) : JoinInv (s.join t id e) := by
  have hlt : t < s.numThreads := h.lt_numThreads (by rw [ht]; simp)
  -- a thread in `Join` is the new joiner, or it was there before
  have hsem : ∀ {t' k},
      ((s.goto t (.joinWait id s.numSems e.threadId)).threads t').sem = some k →
      t' = t ∧ k = s.numSems ∨ (s.threads t').sem = some k := by
    intro t' k hk
    by_cases htt : t' = t
    · subst htt
      rw [goto_threads_self] at hk
      exact Or.inl ⟨rfl, (Option.some.inj hk).symm⟩
    · rw [goto_threads_of_ne htt] at hk
      exact Or.inr hk
  have htable : TableInv (s.join t id e) := by
    refine h.setSlot rfl (fun id' => ?_) rfl (Nat.le_succ _) (h.known id e he)
      (fun id' e' hid he' heq => hid (h.once id' id e' e he' he heq)) (fun sem hs => ?_)
    · by_cases hid : id' = id
      · subst hid
        simp [Processes.join, h.map id', he]
      · simp [Processes.join, hid]
    · cases hs
      exact ⟨Nat.le_refl _, Nat.lt_succ_self _⟩
  have hold : ∀ t' id' k proc, (s.threads t').Joins id' k proc →
      ∃ e', (s.join t id e).execFiles id' = some e' ∧ e'.threadId = proc ∧ e'.s = some k := by
    intro t' id' k proc hj
    obtain ⟨e', he', het', hes'⟩ := h.joined t' id' k proc hj
    have hid : id' ≠ id := by
      rintro rfl
      rw [he] at he'
      cases he'
      rw [hes] at hes'
      cases hes'
    exact ⟨e', (update_of_ne hid ..).trans he', het', hes'⟩
  refine { htable with
    unborn := fun t' => h.goto_unborn hlt
    made := ?_
    own := ?_
    exec := ?_
    joined := ?_
    signalled := ?_
    finished := fun t' id' k proc ht' => goto_ended (by simp [ht])
      (h.finished t' id' k proc (of_goto_threads (by simp) ht')) }
  · intro t' k hk
    rcases hsem hk with ⟨-, rfl⟩ | hk
    · exact Nat.lt_succ_self _
    · exact Nat.lt_succ_of_lt (h.made t' k hk)
  · intro t₁ t₂ k h₁ h₂
    rcases hsem h₁ with ⟨e₁, hk₁⟩ | h₁' <;> rcases hsem h₂ with ⟨e₂, hk₂⟩ | h₂'
    · exact e₁.trans e₂.symm
    · exact absurd (h.made t₂ k h₂') (hk₁ ▸ Nat.lt_irrefl _)
    · exact absurd (h.made t₁ k h₁') (hk₂ ▸ Nat.lt_irrefl _)
    · exact h.own t₁ t₂ k h₁' h₂'
  · intro t' slot ht'
    obtain ⟨e', he', het'⟩ := h.exec t' slot (of_goto_threads (by simp) ht')
    by_cases hid : slot = id
    · subst hid
      rw [he] at he'
      cases he'
      exact ⟨_, update_self .., het'⟩
    · exact ⟨e', (update_of_ne hid ..).trans he', het'⟩
  · rintro t' id' k proc (hj | hj)
    · rcases update_cases hj with ⟨-, hp⟩ | ⟨-, hj⟩
      · cases hp
        exact ⟨_, update_self .., rfl, rfl⟩
      · exact hold t' id' k proc (Or.inl hj)
    · exact hold t' id' k proc (Or.inr (of_goto_threads (by simp) hj))
  · intro t' id' k proc ht' hpos
    have hk : k ≠ s.numSems := by
      rintro rfl
      simp [Processes.join] at hpos
    simp only [Processes.join, update_of_ne hk] at hpos
    rcases update_cases ht' with ⟨-, hp⟩ | ⟨-, hwait⟩
    · cases hp
      exact absurd rfl hk
    · exact goto_ended (by simp [ht]) (h.signalled t' id' k proc hwait hpos)

/-- `P` returns to the joiner. -/
theorem JoinInv.wake_step (ht : s.threads t = .joinWait id sem proc) (hpos : 0 < s.sems sem) :
    JoinInv (s.wake t id sem proc) := by
  have hlt : t < s.numThreads := h.lt_numThreads (by rw [ht]; simp)
  have hself : ∀ {t' id' k proc'},
      (s.goto t (.joinEnd id sem proc)).threads t' = .joinEnd id' k proc' →
      t' = t ∧ id' = id ∧ k = sem ∧ proc' = proc ∨ s.threads t' = .joinEnd id' k proc' := by
    intro t' id' k proc' hj
    rcases update_cases hj with ⟨htt, hp⟩ | ⟨-, hj'⟩
    · cases hp
      exact Or.inl ⟨htt, rfl, rfl, rfl⟩
    · exact Or.inr hj'
  refine { h.goto (p := .joinEnd id sem proc) hlt (fun k hk => by rw [ht]; exact hk), h with
    exec := fun t' slot ht' => h.exec t' slot (of_goto_threads (by simp) ht')
    joined := ?_
    signalled := fun t' id' k proc' hj hk => goto_ended (by simp [ht]) ?_
    finished := fun t' id' k proc' hj => goto_ended (by simp [ht]) ?_ }
  · rintro t' id' k proc' (hj | hj)
    · exact h.joined t' id' k proc' (Or.inl (of_goto_threads (by simp) hj))
    · rcases hself hj with ⟨-, rfl, rfl, rfl⟩ | hj
      · exact h.joined t id' k proc' (Or.inl ht)
      · exact h.joined t' id' k proc' (Or.inr hj)
  · refine h.signalled t' id' k proc' (of_goto_threads (by simp) hj) ?_
    by_cases hks : k = sem
    · exact hks ▸ hpos
    · simpa only [Processes.wake, update_of_ne hks] using hk
  · rcases hself hj with ⟨-, rfl, rfl, rfl⟩ | hj
    · exact h.signalled t id' k proc' ht hpos
    · exact h.finished t' id' k proc' hj

/-- The end of `Nachos_Join`: nobody else has joined the process. -/
theorem JoinInv.finish_step (ht : s.threads t = .joinEnd id sem proc) :
    JoinInv ((s.freeSlot id).goto t .user) := by
  have hlt : t < s.numThreads := h.lt_numThreads (by rw [ht]; simp)
  obtain ⟨e, he, het, hes⟩ := h.joined t id sem proc (Or.inr ht)
  have hfin := h.finished t id sem proc ht
  have hmoved : JoinInv (s.goto t .user) := h.move hlt (by simp [ht]) rfl (by simp)
  refine hmoved.freeSlot_step (fun t' ht' => ?_) (fun t' k proc' hj => ?_)
  · have hexec := of_goto_threads (by simp) ht'
    obtain ⟨e', he', rfl⟩ := h.exec t' id hexec
    rw [he] at he'
    cases he'
    rw [het, hfin] at hexec
    cases hexec
  · have hj' : (s.threads t').Joins id k proc' :=
      hj.imp (of_goto_threads (by simp)) (of_goto_threads (by simp))
    obtain ⟨e', he', -, hes'⟩ := h.joined t' id k proc' hj'
    rw [he] at he'
    cases he'
    rw [hes] at hes'
    cases hes'
    have hsem : (s.threads t').sem = some sem := by
      rcases hj' with hj' | hj' <;> rw [hj'] <;> rfl
    obtain rfl := h.own t' t sem hsem (by rw [ht]; rfl)
    rw [goto_threads_self] at hj
    rcases hj with hj | hj <;> cases hj

end Steps

variable {canOpen}

/-- `Join` finds a process that nobody has joined. -/
def JoinsOnce (s : Processes) : Call → Prop
  | .join _ id => s.execFilesMap.isSet id = true → ∀ e ∈ s.execFiles id, e.s = none
  | _ => True

/-- A step that joins no process twice keeps the invariant. -/
theorem JoinInv.step {s s' : Processes} {c : Call} (h : JoinInv s) (hstep : CallStep canOpen s c s')
    (honce : JoinsOnce s c) : JoinInv s' := by
  revert honce
  refine hstep.inversion (P := fun c s' => JoinsOnce s c → JoinInv s') ?_ ?_ ?_ ?_ ?_ ?_ ?_ ?_
  · exact fun _ fileName _ _ => h.exec_step fileName
  · exact fun _ _ _ => h.fork_step
  · intro t slot info ht _ _
    have hlt : t < s.numThreads := h.lt_numThreads (by rw [ht]; simp)
    split_ifs
    · exact h.move hlt (by simp [ht]) rfl (by simp)
    · exact h.move hlt (by simp [ht]) rfl (by simp)
  · exact fun t s₁ ht hex _ => h.exit_step ht hex
  · exact fun t id e ht hset he honce => h.join_step ht he (honce hset e he)
  · exact fun _ _ _ => h
  · exact fun t id sem proc ht hpos _ => h.wake_step ht hpos
  · exact fun t id sem proc ht _ => h.finish_step ht

/-- The joiners of a process that has ended have been signalled. -/
def Signals (s : Processes) : Prop :=
  ∀ t id sem proc, s.threads t = .joinWait id sem proc → s.threads proc = .ended → 0 < s.sems sem

/-- A thread goes to a place outside `Join`; if it ends, nobody has joined it. -/
theorem Signals.move {s : Processes} {t : ℕ} {p : ThreadPlace} (h : Signals s)
    (hp : ∀ id sem proc, p ≠ .joinWait id sem proc)
    (hend : p = .ended → ∀ t' id sem, ¬ (s.threads t').Joins id sem t) :
    Signals (s.goto t p) := by
  intro t' id sem proc hwait hended
  have hwait' := of_goto_threads (hp id sem proc).symm hwait
  rcases update_cases hended with ⟨rfl, hpe⟩ | ⟨-, hended⟩
  · exact absurd (Or.inl hwait') (hend hpe.symm t' id sem)
  · exact h t' id sem proc hwait' hended

/-- `Nachos_Exit` signals the joiner. -/
theorem Signals.exit_step {s s' : Processes} {t : ℕ} (h : Signals s) (hJ : JoinInv s)
    (hex : s.exitLoop t = some s') : Signals (s'.goto t .ended) := by
  rcases hJ.exitLoop_cases hex with ⟨rfl, hslot⟩ | ⟨id, e, he, rfl, ⟨hes, rfl⟩ | ⟨sem, hes, rfl⟩⟩
  · refine h.move (by simp) fun _ t' id sem hj => ?_
    obtain ⟨e, he, het, -⟩ := hJ.joined t' id sem t hj
    exact hslot id e he het
  · exact h.move (by simp) fun _ => hJ.not_joins he hes
  · intro t' id' k proc hwait hended
    have hwait' := of_goto_threads (by simp) hwait
    by_cases hk : k = sem
    · simp [Processes.signal, hk]
    · rcases update_cases hended with ⟨rfl, -⟩ | ⟨-, hended⟩
      · -- the joiner of the process is the one of its slot
        obtain ⟨e', he', het', hes'⟩ := hJ.joined t' id' k _ (Or.inl hwait')
        obtain rfl := hJ.once id' id e' e he' he het'
        rw [he] at he'
        cases he'
        rw [hes] at hes'
        exact absurd (Option.some.inj hes').symm hk
      · simpa [Processes.signal, hk] using h t' id' k proc hwait' hended

/-- A safe step leaves no joiner without its signal. -/
theorem Signals.step {s s' : Processes} {c : Call} (h : Signals s) (hJ : JoinInv s)
    (hstep : CallStep canOpen s c s') (hsafe : CallSafe canOpen s c) : Signals s' := by
  revert hsafe
  refine hstep.inversion (P := fun c s' => CallSafe canOpen s c → Signals s')
    ?_ ?_ ?_ ?_ ?_ ?_ ?_ ?_
  · intro t fileName _ _
    unfold Processes.exec
    split
    · exact h
    · exact h.move (t := s.numThreads) (by simp) (by simp)
  · exact fun _ _ _ => h.move (by simp) (by simp)
  · intro t slot info ht hinfo hsafe
    simp only [CallSafe, ht] at hsafe
    split_ifs with hopen
    · exact h.move (by simp) (by simp)
    · obtain ⟨e, he, rfl⟩ := hJ.exec t slot ht
      exact h.move (by simp) fun _ => hJ.not_joins he (hsafe e he (by simp_all))
  · exact fun t s₁ _ hex _ => h.exit_step hJ hex
  · intro t id e ht hset he hsafe t' id' k proc hwait hended
    have hended' := of_goto_threads (by simp) hended
    rcases update_cases hwait with ⟨-, hp⟩ | ⟨-, hwait⟩
    · cases hp
      exact absurd hended' (hsafe hset e he).2
    · have hk : k ≠ s.numSems := (hJ.made t' k (by rw [hwait]; rfl)).ne
      simpa only [Processes.join, update_of_ne hk] using h t' id' k proc hwait hended'
  · exact fun _ _ _ => h
  · intro t id sem proc ht hpos _ t' id' k proc' hwait hended
    obtain ⟨hne, hwait'⟩ := of_update_eq hwait (by simp)
    -- the semaphore of `t` is not the semaphore of another joiner
    have hk : k ≠ sem := by
      rintro rfl
      exact hne (hJ.own t' t k (by rw [hwait']; rfl) (by rw [ht]; rfl))
    simpa only [Processes.wake, update_of_ne hk] using
      h t' id' k proc' hwait' (of_goto_threads (by simp) hended)
  · exact fun t id sem proc _ _ => h.move (by simp) (by simp)

theorem CallSafe.joinsOnce {s : Processes} {c : Call} (h : CallSafe canOpen s c) :
    JoinsOnce s c := by
  cases c with
  | join t id => exact fun hset e he => (h hset e he).1
  | _ => trivial

theorem SafeReach.inv {s : Processes} (h : SafeReach canOpen s) : JoinInv s ∧ Signals s := by
  refine Reach.invariant (I := fun s => JoinInv s ∧ Signals s) (fun s hi => ?_) ?_ h
  · refine ⟨joinInv_init hi, ?_⟩
    obtain ⟨words, rfl⟩ := hi
    intro t
    by_cases ht : t = 0 <;> simp [ht]
  · rintro s c s' ⟨hJ, hS⟩ ⟨hstep, hsafe⟩
    exact ⟨hJ.step hstep hsafe.joinsOnce, hS.step hJ hstep hsafe⟩

/-- **No joiner is stranded** in a run all of whose steps are safe: the process that it waits for
has signalled its semaphore when it ended. -/
theorem no_joiner_stranded {s : Processes} (h : SafeReach canOpen s) (t : ℕ) :
    ¬ Stranded canOpen s t := by
  rintro ⟨id, sem, proc, hwait, hended, hzero, -⟩
  have hpos := h.inv.2 t id sem proc hwait hended
  omega

/-! ### Two joiners of one process -/

/-- No slot has the semaphore `sem`, whose value is 0. -/
def Dead (sem : ℕ) (s : Processes) : Prop :=
  sem < s.numSems ∧ s.sems sem = 0 ∧ ∀ id, ∀ e ∈ s.execFiles id, e.s ≠ some sem

section Dead

variable {s s' : Processes} {sem : ℕ} (h : Dead sem s)
include h

theorem Dead.update_execFiles {id : Fin ExecTableSize} {o : Option JoinS}
    (ho : ∀ e ∈ o, e.s ≠ some sem) {id' : Fin ExecTableSize} {e : JoinS}
    (he : e ∈ update s.execFiles id o id') : e.s ≠ some sem := by
  by_cases hid : id' = id
  · subst hid
    rw [update_self] at he
    exact ho e he
  · rw [update_of_ne hid] at he
    exact h.2.2 id' e he

theorem Dead.freeSlot (id : Fin ExecTableSize) : Dead sem (s.freeSlot id) :=
  ⟨h.1, h.2.1, fun _ _ he => h.update_execFiles (by simp) he⟩

theorem Dead.exitSlot {t : ℕ} {ind : Fin ExecTableSize} (hex : s.exitSlot t ind = some s') :
    Dead sem s' := by
  unfold Processes.exitSlot exitSlotOf at hex
  split_ifs at hex
  · split at hex
    next => cases hex
    next e he =>
      split_ifs at hex
      · split at hex
        next k hk =>
          cases hex
          have hne : sem ≠ k := by
            rintro rfl
            exact h.2.2 ind e he hk
          exact ⟨h.1, (update_of_ne hne ..).trans h.2.1, h.2.2⟩
        next =>
          cases hex
          exact h.freeSlot ind
      · cases hex
        exact h
  · cases hex
    exact h

theorem Dead.exitSlots {t : ℕ} {l : List (Fin ExecTableSize)}
    (hex : l.foldlM (Processes.exitSlot t) s = some s') : Dead sem s' := by
  induction l generalizing s with
  | nil =>
    cases hex
    exact h
  | cons ind l ih =>
    rw [List.foldlM_cons] at hex
    obtain ⟨s₁, h₁, hex⟩ := Option.bind_eq_some_iff.1 hex
    exact ih (h.exitSlot h₁) hex

theorem Dead.exec (fileName : String) : Dead sem (s.exec fileName) := by
  unfold Processes.exec
  split
  · exact h
  · exact ⟨h.1, h.2.1, fun _ _ he => h.update_execFiles (by simp) he⟩

/-- No step signals the semaphore, or stores it in a slot. -/
theorem Dead.step {c : Call} (hstep : CallStep canOpen s c s') : Dead sem s' := by
  refine hstep.inversion (P := fun _ s' => Dead sem s') ?_ ?_ ?_ ?_ ?_ ?_ ?_ ?_
  · exact fun _ fileName _ => h.exec fileName
  · exact fun _ _ => h
  · intro t slot info _ _
    split_ifs <;> exact h
  · intro t s₁ _ hex
    have hdead : Dead sem s₁ := h.exitSlots hex
    exact hdead
  · intro t id e _ _ _
    have hne : sem ≠ s.numSems := h.1.ne
    refine ⟨Nat.lt_succ_of_lt h.1, (update_of_ne hne ..).trans h.2.1, ?_⟩
    exact fun _ _ he => h.update_execFiles (by simp [Ne.symm hne]) he
  · exact fun _ _ => h
  · intro t id k proc _ hpos
    have hne : sem ≠ k := by
      rintro rfl
      exact absurd h.2.1 hpos.ne'
    exact ⟨h.1, (update_of_ne hne ..).trans h.2.1, h.2.2⟩
  · exact fun t id _ _ _ => h.freeSlot id

theorem Dead.not_canSignal : ¬ CanSignal canOpen s sem := by
  rintro ⟨s', hreach, hne⟩
  have hdead : Dead sem s' := by
    refine Reach.invariant (I := Dead sem) ?_ (fun _ _ _ hs hst => hs.step hst) hreach
    rintro s₀ rfl
    exact h
  exact hne hdead.2.1

end Dead

instance Processes.decidableCallSafe (s : Processes) (c : Call) :
    Decidable (CallSafe canOpen s c) := by
  unfold CallSafe
  split
  · infer_instance
  · split <;> infer_instance
  · infer_instance

/-- Perform a call that is safe. -/
def Call.performSafe (canOpen : String → Bool) (s : Processes) (c : Call) : Option Processes :=
  if CallSafe canOpen s c then c.perform canOpen s else none

theorem Call.performSafe_step {s s' : Processes} {c : Call}
    (h : c.performSafe canOpen s = some s') : CallStep canOpen s c s' ∧ CallSafe canOpen s c := by
  unfold Call.performSafe at h
  split_ifs at h with hsafe
  exact ⟨h, hsafe⟩

/-- One thread, and an empty table. -/
def oneProcess : Processes where
  execFiles := fun _ => none
  execFilesMap := .new _ fun _ => 0
  sems := fun _ => 0
  numSems := 0
  threads := fun t => if t = 0 then .user else .unborn
  numThreads := 1

theorem oneProcess_init : ProcessesInit oneProcess := ⟨fun _ => 0, rfl⟩

/-- The process ends while it is joined: its joiner can go on. -/
theorem no_joiner_stranded_oneJoiner : ∃ s, SafeReach (fun _ => true) s ∧
    s.threads 0 = .joinWait 0 0 1 ∧ s.threads 1 = .ended ∧ s.sems 0 = 1 ∧
    ∀ t, ¬ Stranded (fun _ => true) s t := by
  obtain ⟨s, hreach, h₀, h₁, hsem⟩ : ∃ s, SafeReach (fun _ => true) s ∧
      s.threads 0 = .joinWait 0 0 1 ∧ s.threads 1 = .ended ∧ s.sems 0 = 1 :=
    Reach.exists_run (fun _ _ _ => Call.performSafe_step) (.init oneProcess_init)
      [.exec 0 "a", .join 0 0, .start 1, .exit 1] (by decide +kernel)
  exact ⟨s, hreach, h₀, h₁, hsem, fun t => no_joiner_stranded hreach t⟩

/-- Two threads join one process: the second `Join` overwrites `execFiles[id]->s`, `Nachos_Exit`
signals that semaphore only, and the first joiner waits for ever. -/
theorem first_joiner_stranded : ∃ s, ProcessesReach (fun _ => true) s ∧
    Stranded (fun _ => true) s 0 := by
  obtain ⟨s, hreach, h₀, h₁, hmade, hzero, hslots⟩ : ∃ s, ProcessesReach (fun _ => true) s ∧
      s.threads 0 = .joinWait 0 0 1 ∧ s.threads 1 = .ended ∧ 0 < s.numSems ∧ s.sems 0 = 0 ∧
      ∀ id, ∀ e ∈ s.execFiles id, e.s ≠ some 0 :=
    Reach.exists_run (fun _ _ _ h => h) (.init oneProcess_init)
      [.exec 0 "a", .fork 0, .join 0 0, .join 2 0, .start 1, .exit 1] (by decide +kernel)
  have hdead : Dead 0 s := ⟨hmade, hzero, hslots⟩
  exact ⟨s, hreach, 0, 0, 1, h₀, h₁, hzero, hdead.not_canSignal⟩

end Nachos
