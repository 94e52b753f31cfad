import Nachos.Lib.Effect
import Nachos.Threads.Lock
import Nachos.Userprog.Syscall

/-!
# The semaphore of the console

`Nachos_Write` of `userprog/exception.cc` uses the semaphore `Console` as a lock.  Here any number
of threads call it, for any files, and may be preempted between any two statements.

* The other system calls change the tables of open files; they do it in any way
  (`WriteEvent.files`).
* The `switch` of `Nachos_Write` comes to its end if `NachosOpenFilesTable.canWrite`, and otherwise
  it is left by a `return` in front of `Console->V()`; `writeSwitch_of_canWrite` and
  `writeSwitch_of_not_canWrite` say so of the system call itself.
* The token of the semaphore is with the semaphore, with a thread, or lost.
-/

namespace Nachos

open Function Transition

/-- The file is one of the console, or open. -/
def NachosOpenFilesTable.canWrite (t : NachosOpenFilesTable) (id : ℤ) : Prop :=
  id = 0 ∨ id = 1 ∨ id = 2 ∨ t.isOpened id = true
  deriving Decidable

/-! ### The system call -/

section syscall

open Fallible

variable {c : Sizes} {w : World c} {k k' : SysState c} {buffer : List Byte} {size : ℕ} {id : ℤ}

/-- No semaphore changes. -/
def SameSemaphores (k k' : SysState c) : Prop := k'.semaphores = k.semaphores

/-- `Console->V()` and the return from the system call. -/
def giveBack (w : World c) : Sys c Unit := do
  semV w Console
  returnFromSystemCall

/-- Nothing touches a semaphore before `Console->V()`, which is the last thing but the return. -/
def GivesBack (w : World c) (k k' : SysState c) : Prop :=
  ∃ k₁, SameSemaphores k k₁ ∧ giveBack w k₁ = .ok ((), k')

theorem GivesBack.after {k₁ : SysState c} (h₁ : SameSemaphores k k₁) (h : GivesBack w k₁ k') :
    GivesBack w k k' := by
  obtain ⟨k₂, h₂, hV⟩ := h
  exact ⟨k₂, h₂.trans h₁, hV⟩

theorem writeLeave_givesBack (n : ℤ) : Effect (GivesBack w) (writeLeave w n) :=
  fun k _ _ h => ⟨{ k with numConsoleCharsWritten := k.numConsoleCharsWritten + n }, rfl, h⟩

theorem orFault_sameSemaphores {α : Type} (r : Except Fault α) :
    Effect SameSemaphores (orFault r : Sys c α) := by
  rintro k a k' h
  cases r <;> cases h
  rfl

theorem readRegister_sameSemaphores (num : Fin NumTotalRegs) :
    Effect SameSemaphores (readRegister num : Sys c (BitVec 32)) := by
  rintro k a k' ⟨⟩
  rfl

theorem writeRegister_sameSemaphores (num : Fin NumTotalRegs) (value : BitVec 32) :
    Effect SameSemaphores (writeRegister num value : Sys c Unit) := .modify fun _ => rfl

theorem call_sameSemaphores : Effect SameSemaphores (call : Sys c ℕ) := by
  rintro k a k' ⟨⟩
  rfl

/-- For a file of the console or an open file, `Nachos_Write` comes to `Console->V()`. -/
theorem writeSwitch_of_canWrite (hid : k.mytable.canWrite id)
    (h : writeSwitch w buffer size id k = .ok ((), k')) : GivesBack w k k' := by
  have hcomp : ∀ s t u : SysState c, SameSemaphores s t → GivesBack w t u → GivesBack w s u :=
    fun _ _ _ => GivesBack.after
  unfold writeSwitch at h
  split at h
  · refine Effect.comp hcomp ?_ (fun _ => ?_) _ _ _ h
    · exact writeRegister_sameSemaphores _ _
    · exact writeLeave_givesBack _
  · refine Effect.comp hcomp ?_ (fun text => Effect.comp hcomp ?_ fun _ => ?_) _ _ _ h
    · exact orFault_sameSemaphores _
    · exact .modify fun _ => rfl
    · exact writeLeave_givesBack _
  · refine Effect.comp hcomp ?_ (fun r4 => Effect.comp hcomp ?_ fun _ => ?_) _ _ _ h
    · exact readRegister_sameSemaphores _
    · exact .modify fun _ => rfl
    · exact writeLeave_givesBack _
  · rename_i h0 h1 h2
    have hopen : k.mytable.isOpened id = true := by
      rcases hid with hid | hid | hid | hid
      · exact absurd hid h0
      · exact absurd hid h1
      · exact absurd hid h2
      · exact hid
    obtain ⟨_, k₁, h₁, h⟩ := bind_eq_ok.1 h
    cases h₁
    rw [if_pos hopen] at h
    refine Effect.comp hcomp ?_ (fun n => Effect.comp hcomp ?_ fun _ => ?_) _ _ _ h
    · exact call_sameSemaphores
    · exact writeRegister_sameSemaphores _ _
    · exact writeLeave_givesBack _

/-- For any other file it returns, and no semaphore has changed. -/
theorem writeSwitch_of_not_canWrite (hid : ¬ k.mytable.canWrite id)
    (h : writeSwitch w buffer size id k = .ok ((), k')) : SameSemaphores k k' := by
  unfold writeSwitch at h
  split at h
  · exact absurd (Or.inl rfl) hid
  · exact absurd (Or.inr (Or.inl rfl)) hid
  · exact absurd (Or.inr (Or.inr (Or.inl rfl))) hid
  · have hclosed : ¬ k.mytable.isOpened id = true := fun ho => hid (Or.inr (Or.inr (Or.inr ho)))
    obtain ⟨_, k₁, h₁, h⟩ := bind_eq_ok.1 h
    cases h₁
    rw [if_neg hclosed] at h
    cases h
    rfl

end syscall

/-! ### The threads -/

/-- Where a thread is in `Nachos_Write`. -/
inductive WriteCode
  | outside
  -- up to the end of `Console->P()`; past it; past the `switch`
  | inP (id : ℤ)
  | gotP (id : ℤ)
  | atV
  deriving DecidableEq, Repr

/-- Past `Console->P()`. -/
@[simp] def WriteCode.Inside : WriteCode → Prop
  | gotP _ => True
  | atV => True
  | _ => False

/-- The semaphore `Console`, the tables of the threads, and where they are. -/
structure WriteState where
  console : Semaphore
  mytable : ℕ → NachosOpenFilesTable
  code : ℕ → WriteCode
  -- history: the calls that have returned without `Console->V()`, by thread and file
  lost : List (ℕ × ℤ)

/-- The steps. -/
inductive WriteEvent
  | call (t : ℕ) (id : ℤ)
  | semP (t : ℕ) (id : ℤ)
  | switch (t : ℕ) (id : ℤ)
  | semV (t : ℕ)
  | files (mytable : ℕ → NachosOpenFilesTable)

namespace WriteEvent

/-- When a step can be taken. -/
def enabled (s : WriteState) : WriteEvent → Prop
  | call t _ => s.code t = .outside
  | semP t id => s.code t = .inP id ∧ t ∉ s.console.queue
  | switch t id => s.code t = .gotP id
  | semV t => s.code t = .atV
  | files _ => True

instance decidableEnabled (s : WriteState) (e : WriteEvent) : Decidable (e.enabled s) := by
  cases e <;> unfold enabled <;> infer_instance

/-- Take a step. -/
@[simp] def next (s : WriteState) : WriteEvent → WriteState
  | call t id => { s with code := update s.code t (.inP id) }
  | semP t id => { s with
      console := (s.console.tryP t).2
      code := if (s.console.tryP t).1 then update s.code t (.gotP id) else s.code }
  | switch t id =>
    if (s.mytable t).canWrite id then { s with code := update s.code t .atV }
    else { s with code := update s.code t .outside, lost := s.lost ++ [(t, id)] }
  | semV t => { s with console := s.console.postV, code := update s.code t .outside }
  | files mytable => { s with mytable := mytable }

end WriteEvent

/-- One step of one thread. -/
def WriteStep (s : WriteState) (e : WriteEvent) (s' : WriteState) : Prop :=
  e.enabled s ∧ s' = e.next s

/-- `Console = new Semaphore("Console", 1)`, and nobody is in `Nachos_Write`. -/
def WriteInit (s : WriteState) : Prop :=
  ∃ mytable, s = ⟨⟨1, []⟩, mytable, fun _ => .outside, []⟩

/-- The states of all runs. -/
def WriteReach (s : WriteState) : Prop := Reach WriteInit WriteStep s

/-- The file of a call that has come through `Console->P()` is one of the console or open. -/
def WriteEvent.toOpen (s : WriteState) : WriteEvent → Prop
  | switch t id => (s.mytable t).canWrite id
  | _ => True

instance WriteEvent.decidableToOpen (s : WriteState) (e : WriteEvent) : Decidable (e.toOpen s) := by
  cases e <;> unfold toOpen <;> infer_instance

/-- A step of that kind. -/
def OpenStep (s : WriteState) (e : WriteEvent) (s' : WriteState) : Prop :=
  (e.enabled s ∧ e.toOpen s) ∧ s' = e.next s

/-- The states of the runs that consist of such steps. -/
def OpenReach (s : WriteState) : Prop := Reach WriteInit OpenStep s

/-! ### The invariant -/

/-- Who has the token: a thread, or nobody any more. -/
@[simp] def WriteState.Owns (s : WriteState) : Option ℕ → Prop
  | some t => (s.code t).Inside
  | none => s.lost ≠ []

/-- The invariant. -/
structure ConsoleInv (s : WriteState) : Prop where
  one : Token.One s.console.value s.Owns
  queued : ∀ t ∈ s.console.queue, ∃ id, s.code t = .inP id
  once : s.console.queue.Nodup
  -- when the semaphore is free and threads are asleep, one has been woken
  awake : s.console.value ≠ 0 → s.console.queue = [] ∨
    ∃ t id, s.code t = .inP id ∧ t ∉ s.console.queue

section invariant

open Update

variable {s s' : WriteState} {t : ℕ}

theorem ConsoleInv.notMem_queue (h : ConsoleInv s) (ht : ∀ id, s.code t ≠ .inP id) :
    t ∉ s.console.queue := by
  intro hq
  obtain ⟨id, hid⟩ := h.queued t hq
  exact ht id hid

/-- A thread that is not asleep goes on. -/
theorem ConsoleInv.queued_update (h : ConsoleInv s) {p : WriteCode} (ht : t ∉ s.console.queue) :
    ∀ u ∈ s.console.queue, ∃ id, update s.code t p u = .inP id := by
  intro u hu
  obtain ⟨id, hid⟩ := h.queued u hu
  have hut : u ≠ t := by
    rintro rfl
    exact ht hu
  exact ⟨id, (update_of_ne hut ..).trans hid⟩

/-- A thread goes on without crossing `Console->P()` or `Console->V()`. -/
theorem ConsoleInv.goOn (h : ConsoleInv s) {p : WriteCode} (hp : p.Inside ↔ (s.code t).Inside) :
    Token.One s.console.value { s with code := update s.code t p }.Owns := by
  refine h.one.congr fun o => ?_
  cases o with
  | none => exact Iff.rfl
  | some u =>
    by_cases hu : u = t
    · subst hu
      simpa using hp
    · simp [hu]

/-- The owners other than `t` stay when it goes on. -/
theorem WriteState.owns_of_update {p : WriteCode} {o : Option ℕ} (ho : o ≠ some t)
    (h : { s with code := update s.code t p }.Owns o) : s.Owns o := by
  cases o with
  | none => exact h
  | some u =>
    have hut : u ≠ t := fun he => ho (congrArg some he)
    simpa [hut] using h

theorem ConsoleInv.semP {id : ℤ} (h : ConsoleInv s) (ht : s.code t = .inP id)
    (hq : t ∉ s.console.queue) : ConsoleInv ((WriteEvent.semP t id).next s) := by
  by_cases hv : s.console.value = 0
  · simp only [WriteEvent.next, Semaphore.tryP_of_zero hv]
    refine ⟨h.one, fun u hu => ?_, ?_, fun hv' => absurd hv hv'⟩
    · rcases List.mem_append.1 hu with hu | hu
      · exact h.queued u hu
      · rw [List.mem_singleton.1 hu]
        exact ⟨id, ht⟩
    · refine List.nodup_append.2 ⟨h.once, List.nodup_singleton t, ?_⟩
      rintro a ha b hb rfl
      exact hq (List.mem_singleton.1 hb ▸ ha)
  · have hv1 := (h.one.none_of hv).1
    simp only [WriteEvent.next, Semaphore.tryP_of_ne hv, if_true]
    refine ⟨h.one.take hv (t := some t) ?_ fun o ho => WriteState.owns_of_update ho,
      h.queued_update hq, h.once, fun hv' => absurd (by rw [hv1]; rfl) hv'⟩
    simp

theorem ConsoleInv.switch {id : ℤ} (h : ConsoleInv s) (ht : s.code t = .gotP id) :
    ConsoleInv ((WriteEvent.switch t id).next s) := by
  have hin : s.Owns (some t) := by simp [ht]
  have hv := h.one.zero_of hin
  have hq : t ∉ s.console.queue := h.notMem_queue (by simp [ht])
  simp only [WriteEvent.next]
  split
  · exact ⟨h.goOn (by simp [ht]), h.queued_update hq, h.once,
      fun hv' => absurd hv hv'⟩
  · -- the token is lost
    refine ⟨h.one.pass hin (u := none) (by simp) ?_ fun o ho hn hJ => ?_,
      h.queued_update hq, h.once, fun hv' => absurd hv hv'⟩
    · intro hJ
      simp at hJ
    · cases o with
      | none => exact absurd rfl hn
      | some u => exact WriteState.owns_of_update ho hJ

theorem ConsoleInv.semV (h : ConsoleInv s) (ht : s.code t = .atV) :
    ConsoleInv ((WriteEvent.semV t).next s) := by
  have hin : s.Owns (some t) := by simp [ht]
  have hupd := h.queued_update (p := .outside) (h.notMem_queue (t := t) (by simp [ht]))
  refine ⟨h.one.give hin ?_ fun o ho => WriteState.owns_of_update ho,
    fun u hu => hupd u (List.mem_of_mem_tail hu), h.once.tail, fun _ => ?_⟩
  · simp
  · cases hq : s.console.queue with
    | nil => exact Or.inl (by simp [hq])
    | cons u rest =>
      -- the first thread on the queue is awake now
      obtain ⟨id, hid⟩ := hupd u (by simp [hq])
      refine Or.inr ⟨u, id, hid, ?_⟩
      have hnd := h.once
      rw [hq] at hnd
      simpa [hq] using (List.nodup_cons.1 hnd).1

theorem ConsoleInv.step {e : WriteEvent} (h : ConsoleInv s) (hst : WriteStep s e s') :
    ConsoleInv s' := by
  obtain ⟨hen, rfl⟩ := hst
  cases e with
  | call t id =>
    have ht : s.code t = .outside := hen
    have hq : t ∉ s.console.queue := h.notMem_queue (by simp [ht])
    exact ⟨h.goOn (by simp [ht]), h.queued_update hq, h.once,
      fun _ => Or.inr ⟨t, id, update_self .., hq⟩⟩
  | semP t id => exact h.semP hen.1 hen.2
  | switch t id => exact h.switch hen
  | semV t => exact h.semV hen
  | files mytable => exact ⟨h.one.congr fun o => by cases o <;> rfl, h.queued, h.once, h.awake⟩

theorem WriteReach.inv (h : WriteReach s) : ConsoleInv s := by
  refine Reach.invariant (I := ConsoleInv) ?_ (fun _ _ _ hs hst => hs.step hst) h
  rintro s ⟨mytable, rfl⟩
  refine ⟨Or.inl ⟨rfl, fun o => ?_⟩, by simp, List.nodup_nil, fun _ => Or.inl rfl⟩
  cases o <;> simp

theorem OpenReach.reach (h : OpenReach s) : WriteReach s :=
  Reach.mono (fun _ _ _ hst => ⟨hst.1.1, hst.2⟩) h

theorem OpenReach.lost (h : OpenReach s) : s.lost = [] := by
  induction h with
  | init hi =>
    obtain ⟨mytable, rfl⟩ := hi
    rfl
  | step e _ hst ih =>
    obtain ⟨⟨-, hopen⟩, rfl⟩ := hst
    cases e with
    | switch t id =>
      rw [WriteEvent.next, if_pos (show NachosOpenFilesTable.canWrite _ id from hopen)]
      exact ih
    | _ => exact ih

end invariant

/-- **The console is given back**, in the runs in which every `Write` is to a file of the console or
to a file that is open when `Console->P()` has returned: the value is 1 when nobody is in
`Nachos_Write`; when it is 0 there is a thread that is going to call `Console->V()`; and when it is
not, and threads sleep in `Console->P()`, there is one in it that is awake.  In any run, the value
is 1 when nobody is in `Nachos_Write` if and only if no call has returned from the middle of it; and
after such a call nobody gets through `Console->P()` again. -/
theorem console_given_back (s : WriteState) :
    (OpenReach s →
      ((∀ t, s.code t = .outside) → s.console.value = 1) ∧
      (s.console.value = 0 → ∃ t, (s.code t).Inside) ∧
      (s.console.value ≠ 0 → s.console.queue = [] ∨
        ∃ t id, s.code t = .inP id ∧ t ∉ s.console.queue)) ∧
    (WriteReach s →
      ((∀ t, s.code t = .outside) → (s.console.value = 1 ↔ s.lost = [])) ∧
      (s.lost ≠ [] → s.console.value = 0 ∧ ∀ t, ¬ (s.code t).Inside)) := by
  have hiff : WriteReach s → (∀ t, s.code t = .outside) →
      (s.console.value = 1 ↔ s.lost = []) := by
    intro h hout
    constructor
    · intro hv
      by_contra hlost
      rw [h.inv.one.zero_of (t := none) hlost] at hv
      cases hv
    · intro hlost
      by_contra hv
      rcases h.inv.one with ⟨hv1, -⟩ | ⟨-, o, ho, -⟩
      · exact hv hv1
      · cases o with
        | none => exact ho hlost
        | some t => simp [hout t] at ho
  refine ⟨fun h => ⟨fun hout => (hiff h.reach hout).2 h.lost, fun hv => ?_,
    h.reach.inv.awake⟩, fun h => ⟨hiff h, fun hlost => ?_⟩⟩
  · rcases h.reach.inv.one with ⟨hv1, -⟩ | ⟨-, o, ho, -⟩
    · rw [hv] at hv1
      cases hv1
    · cases o with
      | none => exact absurd h.lost ho
      | some t => exact ⟨t, ho⟩
  · refine ⟨h.inv.one.zero_of (t := none) hlost, fun t ht => ?_⟩
    have he : none = some t := h.inv.one.unique (t := none) (u := some t) hlost ht
    cases he

/-- Nobody is in `Nachos_Write`, and no file is open but those of the console. -/
def writeStart : WriteState :=
  ⟨⟨1, []⟩, fun _ => .new 1 fun _ => 0, fun _ => .outside, []⟩

theorem writeStart_init : WriteInit writeStart := ⟨_, rfl⟩

/-- Thread 1 has written to the console and thread 2 waits. -/
theorem console_given_back_twoWrites :
    ∃ s, OpenReach s ∧ s.console.queue = [2] ∧ s.console.value = 0 ∧ ∃ t, (s.code t).Inside := by
  obtain ⟨s, hr, hq, hv⟩ : ∃ s, OpenReach s ∧ s.console.queue = [2] ∧ s.console.value = 0 :=
    Reach.exists_run
      (exec_step (fun s (e : WriteEvent) => e.enabled s ∧ e.toOpen s) WriteEvent.next)
      (.init writeStart_init) [.call 1 1, .call 2 1, .semP 1 1, .semP 2 1, .switch 1 1]
      (by decide +kernel)
  exact ⟨s, hr, hq, hv, ((console_given_back s).1 hr).2.1 hv⟩

/-- A `Write` to a file that is not open has returned, and the console is taken: the next `Write` to
it goes to sleep, with nobody to wake it. -/
theorem console_kept :
    (∃ s, WriteReach s ∧ (∀ t, s.code t = .outside) ∧ s.console.value = 0) ∧
    ∃ s, WriteReach s ∧ s.code 1 = .outside ∧ s.code 2 = .inP 1 ∧ s.console.queue = [2] ∧
      s.lost = [(1, 5)] := by
  refine ⟨?_, ?_⟩
  · let s₁ := (WriteEvent.call 1 5).next writeStart
    let s₂ := (WriteEvent.semP 1 5).next s₁
    have h₁ : WriteReach s₁ := .step (.call 1 5) (.init writeStart_init) ⟨rfl, rfl⟩
    have h₂ : WriteReach s₂ := .step (.semP 1 5) h₁ ⟨by decide, rfl⟩
    refine ⟨_, .step (.switch 1 5) h₂ ⟨by decide, rfl⟩, fun t => ?_, by decide +kernel⟩
    have hclosed : ¬ (s₂.mytable 1).canWrite 5 := by decide +kernel
    simp only [WriteEvent.next, if_neg hclosed]
    by_cases ht : t = 1
    · rw [ht]
      exact update_self ..
    · rw [update_of_ne ht]
      exact (update_of_ne ht ..).trans (update_of_ne ht ..)
  · exact Reach.exists_run (exec_step WriteEvent.enabled WriteEvent.next)
      (.init writeStart_init) [.call 1 5, .semP 1 5, .switch 1 5, .call 2 1, .semP 2 1]
      (by decide +kernel)

end Nachos
