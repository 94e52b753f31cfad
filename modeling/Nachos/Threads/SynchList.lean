import Nachos.Threads.Condition

/-!
# Synchronized lists

`SynchList::Append` and `SynchList::Remove` of `threads/synchlist.h`, for any number of threads that
may be preempted between any two statements.

* The lock and the condition variable `listEmpty` are those of `Nachos.Threads.Condition`: a step
  here takes a `CondStep` or leaves them alone.
* `List::Remove` returns `Item()` on an empty list; here that is `none`.
* The fields after `code` are history: they are written, and never read.
-/

namespace Nachos

open Function Transition

variable {α : Type*}

/-- Where a thread is in the functions of `SynchList`. -/
inductive SynchCode (α : Type*)
  | outside
  -- `Append`: in `lock->Acquire()`; past `list->Append(item)`; past the `Remove` of `Signal`
  | appendLock (item : α)
  | appendSignal
  | appendUnlock
  -- `Remove`: in `lock->Acquire()`, or back from `Wait`; past a test that found the list empty; in
  -- `Wait`; past a test that found an item; past `list->Remove()`
  | removeLock
  | removeEmpty
  | removeWait
  | removeTake
  | removeUnlock
  deriving DecidableEq, Repr

/-- In `Remove`, and no item has been taken from the list yet. -/
@[simp] def SynchCode.Removing : SynchCode α → Prop
  | removeLock => True
  | removeEmpty => True
  | removeWait => True
  | removeTake => True
  | _ => False

/-- `class SynchList`, and where its threads are. -/
structure SynchState (α : Type*) where
  cond : CondState
  list : List α
  code : ℕ → SynchCode α
  -- the items, in the order of `list->Append` and of `list->Remove`
  appended : List α
  removed : List (Option α)
  -- the threads that `Signal` has selected and that have not taken an item or queued again since
  signalled : List ℕ

/-- The steps. -/
inductive SynchEvent (α : Type*)
  | append (t : ℕ) (item : α)
  | listAppend (t : ℕ) (item : α)
  | remove (t : ℕ)
  | test (t : ℕ)
  | take (t : ℕ)
  | done (t : ℕ)
  | cond (e : CondEvent)

namespace SynchEvent

/-- Which statements of the lock and the condition variable a thread may execute. -/
@[simp] def condAllowed : CondEvent → SynchCode α → Bool
  | .lock e, .appendLock _ => e.ofAcquire
  | .lock e, .removeLock => e.ofAcquire
  | .signal _, .appendSignal => true
  | .select _ caller, .appendSignal => caller.isNone
  | .semV _ _ _, .appendUnlock => true
  | .lock e, .appendUnlock => !e.ofAcquire
  | .wait _, .removeEmpty => true
  | .lock _, .removeWait => true
  | .semP _ _, .removeWait => true
  | .ret _ _, .removeWait => true
  | .lock e, .removeUnlock => !e.ofAcquire
  | _, _ => false

/-- Where a thread continues after it. -/
@[simp] def afterCond : CondEvent → SynchCode α → SynchCode α
  | .select _ _, _ => .appendUnlock
  | .wait _, _ => .removeWait
  | .ret _ _, _ => .removeLock
  | _, p => p

/-- `Signal` selects a thread; `Wait` queues one. -/
def signalledAfter (s : SynchState α) : CondEvent → List ℕ
  | .select _ _ => s.signalled ++ s.cond.waitQueue.head?.toList.map s.cond.owner
  | .wait t => s.signalled.erase t
  | _ => s.signalled

/-- When a step can be taken. -/
def enabled (s : SynchState α) : SynchEvent α → Prop
  | append t _ => s.code t = .outside
  | listAppend t item => s.code t = .appendLock item ∧ s.cond.lock.code t = .holds
  | remove t => s.code t = .outside
  | test t => s.code t = .removeLock ∧ s.cond.lock.code t = .holds
  | take t => s.code t = .removeTake
  | done t => (s.code t = .appendUnlock ∨ s.code t = .removeUnlock) ∧
    s.cond.lock.code t = .outside
  | cond e => e.enabled s.cond ∧ condAllowed e (s.code e.thread) = true

instance decidableEnabled [DecidableEq α] (s : SynchState α) (e : SynchEvent α) :
    Decidable (e.enabled s) := by
  cases e <;> unfold enabled <;> infer_instance

/-- Take a step. -/
@[simp] def next (s : SynchState α) : SynchEvent α → SynchState α
  | append t item => { s with code := update s.code t (.appendLock item) }
  | listAppend t item => { s with
      list := s.list ++ [item]
      code := update s.code t .appendSignal
      appended := s.appended ++ [item] }
  | remove t => { s with code := update s.code t .removeLock }
  | test t => { s with
      code := update s.code t (if s.list.isEmpty then .removeEmpty else .removeTake) }
  | take t => { s with
      list := s.list.tail
      code := update s.code t .removeUnlock
      removed := s.removed ++ [s.list.head?]
      signalled := s.signalled.erase t }
  | done t => { s with code := update s.code t .outside }
  | cond e => { s with
      cond := e.next s.cond
      code := update s.code e.thread (afterCond e (s.code e.thread))
      signalled := signalledAfter s e }

end SynchEvent

/-- One step of one thread. -/
def SynchStep (s : SynchState α) (e : SynchEvent α) (s' : SynchState α) : Prop :=
  e.enabled s ∧ s' = e.next s

/-- An empty list that nobody uses. -/
def SynchInit (s : SynchState α) : Prop :=
  ∃ cond, CondInit cond ∧ s = ⟨cond, [], fun _ => .outside, [], [], []⟩

/-- The states of all runs. -/
def SynchReach (s : SynchState α) : Prop := Reach SynchInit SynchStep s

theorem SynchReach.cond {s : SynchState α} (h : SynchReach s) : CondReach s.cond := by
  refine Reach.simulation SynchState.cond ?_ (fun s e s' _ hst => ?_) h
  · rintro s ⟨cond, hc, rfl⟩
    exact hc
  · obtain ⟨hen, rfl⟩ := hst
    cases e with
    | cond e => exact Or.inr ⟨e, hen.1, rfl⟩
    | _ => exact Or.inl rfl

/-! ### Where a step leads -/

/-- Who executes. -/
@[simp] def SynchEvent.thread : SynchEvent α → ℕ
  | append t _ => t
  | listAppend t _ => t
  | remove t => t
  | test t => t
  | take t => t
  | done t => t
  | cond e => e.thread

/-- A call of `Append` or of `Remove`. -/
def SynchEvent.isCall : SynchEvent α → Bool
  | append _ _ => true
  | remove _ => true
  | _ => false

/-- In `Append`. -/
@[simp] def SynchCode.InAppend : SynchCode α → Prop
  | appendLock _ => True
  | appendSignal => True
  | appendUnlock => True
  | _ => False

/-- In `Remove`. -/
@[simp] def SynchCode.InRemove : SynchCode α → Prop
  | removeUnlock => True
  | p => p.Removing

theorem SynchCode.outside_or (p : SynchCode α) : p = .outside ∨ p.InAppend ∨ p.InRemove := by
  cases p <;> simp

/-- The other threads stay where they are. -/
theorem SynchEvent.next_code_of_ne {s : SynchState α} {e : SynchEvent α} {u : ℕ}
    (hu : u ≠ e.thread) : (e.next s).code u = s.code u := by
  cases e <;> exact update_of_ne hu ..

/-- A thread stays in its function until it is outside; only `list->Append` takes it away from
before that. -/
theorem SynchEvent.next_code {s : SynchState α} {e : SynchEvent α} (hen : e.enabled s)
    (he : e.isCall = false) (u : ℕ) :
    (((e.next s).code u).InAppend → (s.code u).InAppend) ∧
      (((e.next s).code u).InRemove → (s.code u).InRemove) ∧
      ((∀ t item, e ≠ .listAppend t item) → ∀ item,
        (e.next s).code u = .appendLock item ↔ s.code u = .appendLock item) := by
  by_cases hu : u = e.thread
  · subst hu
    cases e with
    | append t item => cases he
    | remove t => cases he
    | listAppend t item => simp [hen.1]
    | test t =>
      simp only [next, thread, hen.1, update_self]
      split_ifs <;> simp
    | take t =>
      have ht : s.code t = .removeTake := hen
      simp [ht]
    | done t => rcases hen.1 with ht | ht <;> simp [ht]
    | cond e =>
      obtain ⟨-, hallowed⟩ := hen
      simp only [next, thread, update_self]
      cases hp : s.code e.thread <;> rw [hp] at hallowed <;> cases e <;>
        simp_all [condAllowed, afterCond]
  · rw [next_code_of_ne hu]
    exact ⟨id, id, fun _ _ => Iff.rfl⟩

/-- Only `list->Append` appends an item. -/
theorem SynchEvent.next_appended {s : SynchState α} {e : SynchEvent α}
    (hnot : ∀ t item, e ≠ .listAppend t item) : (e.next s).appended = s.appended := by
  cases e with
  | listAppend t item => exact absurd rfl (hnot t item)
  | _ => rfl

/-- Only `list->Remove` removes an item. -/
theorem SynchEvent.next_removed {s : SynchState α} {e : SynchEvent α} (hnot : ∀ t, e ≠ .take t) :
    (e.next s).removed = s.removed := by
  cases e with
  | take t => exact absurd rfl (hnot t)
  | _ => rfl

/-! ### The invariant -/

/-- A thread in the middle of the critical section. -/
@[simp] def SynchCode.Critical : SynchCode α → Prop
  | appendSignal => True
  | removeEmpty => True
  | removeTake => True
  | _ => False

/-- A thread in the middle of the critical section has the lock, and knows whether there is an
item. -/
@[simp] def SynchCode.Allows (list : List α) (lock : LockCode) : SynchCode α → Prop
  | appendSignal => lock = .holds
  | removeEmpty => lock = .holds ∧ list = []
  | removeTake => lock = .holds ∧ list ≠ []
  | _ => True

theorem SynchCode.allows_of_not_critical {list : List α} {lock : LockCode} {p : SynchCode α}
    (h : ¬ p.Critical) : p.Allows list lock := by
  cases p <;> simp_all

/-- In `Wait`, past `waitQueue->Append`. -/
@[simp] def CondCode.InWait : CondCode → Prop
  | waiting _ => True
  | waking _ => True
  | _ => False

/-- The invariant. -/
structure SynchInv (s : SynchState α) : Prop where
  allows : ∀ t, (s.code t).Allows s.list (s.cond.lock.code t)
  fifo : s.removed ++ s.list.map some = s.appended.map some
  waits : ∀ t, (s.cond.code t).InWait → s.code t = .removeWait
  once : s.signalled.Nodup
  removing : ∀ t ∈ s.signalled, (s.code t).Removing
  apart : ∀ t ∈ s.signalled, ∀ w ∈ s.cond.waitQueue, s.cond.owner w ≠ t
  coming : s.cond.waitQueue ≠ [] → s.list.length ≤ s.signalled.length ∨
    s.list.length ≤ s.signalled.length + 1 ∧ ∃ t, s.code t = .appendSignal

section invariant

open Update

variable {s s' : SynchState α} {t : ℕ}

theorem SynchInv.critical_unique (h : SynchInv s) (hl : LockInv s.cond.lock) {u : ℕ}
    (ht : s.cond.lock.code t = .holds) (hu : (s.code u).Critical) : u = t := by
  refine hl.holds_unique ?_ ht
  have hallows := h.allows u
  revert hu hallows
  cases s.code u <;> simp_all

/-- If a thread has the lock, the others are not in the middle of the critical section. -/
theorem SynchInv.allows_other (h : SynchInv s) (hl : LockInv s.cond.lock)
    (hold : s.cond.lock.code t = .holds) (list : List α) {u : ℕ} (hu : u ≠ t) :
    (s.code u).Allows list (s.cond.lock.code u) :=
  SynchCode.allows_of_not_critical fun hc => hu (h.critical_unique hl hold hc)

/-- Thread `t` goes on to `p`. -/
theorem SynchInv.allows_update {l : List α} {k : ℕ → LockCode}
    (h : ∀ u ≠ t, (s.code u).Allows l (k u)) {p : SynchCode α} (hp : p.Allows l (k t)) (u : ℕ) :
    (update s.code t p u).Allows l (k u) := by
  by_cases hu : u = t
  · subst hu
    rwa [update_self]
  · rw [update_of_ne hu]
    exact h u hu

/-- A thread outside of `Wait` goes on, and leaves the lock and the condition variable alone. -/
theorem SynchInv.move (h : SynchInv s) {p : SynchCode α} (hcond : s'.cond = s.cond)
    (hcode : s'.code = update s.code t p) (hw : s.code t ≠ .removeWait)
    (hp : p.Allows s'.list (s.cond.lock.code t))
    (hothers : ∀ u ≠ t, (s.code u).Allows s'.list (s.cond.lock.code u))
    (hfifo : s'.removed ++ s'.list.map some = s'.appended.map some) (honce : s'.signalled.Nodup)
    (hsig : ∀ u ∈ s'.signalled, u ∈ s.signalled ∧ (u = t → p.Removing))
    (hcoming : s.cond.waitQueue ≠ [] → s'.list.length ≤ s'.signalled.length ∨
      s'.list.length ≤ s'.signalled.length + 1 ∧ ∃ u, s'.code u = .appendSignal) :
    SynchInv s' := by
  obtain ⟨cond, list, code, appended, removed, signalled⟩ := s'
  subst hcond hcode
  refine ⟨allows_update hothers hp, hfifo, fun u hu => update_eq_of (h.waits u hu) hw, honce,
    fun u hu => ?_, fun u hu => h.apart u (hsig u hu).1, hcoming⟩
  obtain ⟨hu, hut⟩ := hsig u hu
  by_cases heq : u = t
  · subst heq
    simpa using hut rfl
  · simpa [heq] using h.removing u hu

/-- A thread outside of `Wait` and `Signal` goes on, and leaves the list alone too. -/
theorem SynchInv.goto (h : SynchInv s) {p : SynchCode α} (hw : s.code t ≠ .removeWait)
    (ha : s.code t ≠ .appendSignal) (hp : p.Allows s.list (s.cond.lock.code t))
    (hr : (s.code t).Removing → p.Removing) :
    SynchInv { s with code := update s.code t p } := by
  refine h.move rfl rfl hw hp (fun u _ => h.allows u) h.fifo h.once
    (fun u hu => ⟨hu, fun hut => hr (hut ▸ h.removing u hu)⟩) fun hq => ?_
  exact (h.coming hq).imp_right fun ⟨hlen, u, hu⟩ => ⟨hlen, u, update_eq_of hu ha⟩

theorem SynchInv.listAppend (h : SynchInv s) (hl : LockInv s.cond.lock) {item : α}
    (ht : s.code t = .appendLock item) (hold : s.cond.lock.code t = .holds) :
    SynchInv ((SynchEvent.listAppend t item).next s) := by
  refine h.move rfl rfl (by simp [ht]) hold (fun u => h.allows_other hl hold _) ?_ h.once
    (fun u hu => ⟨hu, ?_⟩) fun hq => Or.inr ⟨?_, t, update_self ..⟩
  · simp only [SynchEvent.next, List.map_append, ← List.append_assoc, h.fifo]
  · rintro rfl
    simpa [ht] using h.removing u hu
  · rcases h.coming hq with hlen | ⟨-, u, hu⟩
    · simpa using hlen
    · have hut := h.critical_unique hl hold (u := u) (by simp [hu])
      simp [hut, ht] at hu

theorem SynchInv.takeItem (h : SynchInv s) (hl : LockInv s.cond.lock)
    (ht : s.code t = .removeTake) : SynchInv ((SynchEvent.take t).next s) := by
  obtain ⟨hold, hne⟩ : s.cond.lock.code t = .holds ∧ s.list ≠ [] := by
    simpa [ht] using h.allows t
  obtain ⟨item, rest, hlist⟩ := List.exists_cons_of_ne_nil hne
  refine h.move rfl rfl (by simp [ht]) trivial (fun u => h.allows_other hl hold _) ?_
    (h.once.erase t) (fun u hu => ?_) fun hq => Or.inl ?_
  · have hf := h.fifo
    simp only [hlist, List.map_cons] at hf
    simp only [SynchEvent.next, hlist, List.head?_cons, List.tail_cons, List.append_assoc,
      List.singleton_append, hf]
  · obtain ⟨hut, hu⟩ := (h.once.mem_erase_iff).1 hu
    exact ⟨hu, fun heq => absurd heq hut⟩
  · have hlen : s.list.length ≤ s.signalled.length := by
      refine (h.coming hq).resolve_right ?_
      rintro ⟨-, u, hu⟩
      have hut := h.critical_unique hl hold (u := u) (by simp [hu])
      simp [hut, ht] at hu
    have herase : s.signalled.length - 1 ≤ (s.signalled.erase t).length := List.le_length_erase
    simp only [SynchEvent.next, List.length_tail]
    omega

/-- The lock and the condition variable change, and nobody goes on in `SynchList`. -/
theorem SynchInv.condFrame (h : SynchInv s) {cond : CondState}
    (hq : cond.waitQueue = s.cond.waitQueue) (ho : cond.owner = s.cond.owner)
    (hlock : ∀ u, (s.code u).Critical → cond.lock.code u = s.cond.lock.code u)
    (hw : ∀ u, (cond.code u).InWait → s.code u = .removeWait) :
    SynchInv { s with cond := cond } where
  allows u := by
    by_cases hu : (s.code u).Critical
    · rw [hlock u hu]
      exact h.allows u
    · exact SynchCode.allows_of_not_critical hu
  fifo := h.fifo
  waits := hw
  once := h.once
  removing := h.removing
  apart := by
    dsimp only
    rw [hq, ho]
    exact h.apart
  coming := by
    dsimp only
    rw [hq]
    exact h.coming

/-- Where the threads in `Wait` are when one goes on both there and in `SynchList`. -/
theorem SynchInv.waits_goto (h : SynchInv s) {p : CondCode} {q : SynchCode α}
    (hpq : p.InWait → q = .removeWait) (u : ℕ) (hu : ((s.cond.goto t p).code u).InWait) :
    update s.code t q u = .removeWait := by
  by_cases hut : u = t
  · subst hut
    rw [CondState.goto_code_self] at hu
    rw [update_self, hpq hu]
  · rw [CondState.goto_code_of_ne hut] at hu
    rw [update_of_ne hut, h.waits u hu]

/-- A thread comes back from `Wait`. -/
theorem SynchInv.ret (h : SynchInv s) (ht : s.code t = .removeWait) :
    SynchInv { s with
      cond := s.cond.goto t .outside
      code := update s.code t .removeLock } := by
  refine ⟨allows_update (fun u _ => h.allows u) trivial, h.fifo, h.waits_goto (by simp), h.once,
    fun u hu => ?_, h.apart, fun hq => ?_⟩
  · by_cases hut : u = t
    · simp [hut]
    · simpa [hut] using h.removing u hu
  · exact (h.coming hq).imp_right fun ⟨hlen, u, hu⟩ => ⟨hlen, u, update_eq_of hu (by simp [ht])⟩

/-- A thread that found the list empty calls `Wait`. -/
theorem SynchInv.wait (h : SynchInv s) (hc : CondInv s.cond) (ht : s.code t = .removeEmpty) :
    SynchInv { s with
      cond := s.cond.enqueue t
      code := update s.code t .removeWait
      signalled := s.signalled.erase t } := by
  have hempty : s.list = [] := by
    have hallows := h.allows t
    simp only [ht, SynchCode.Allows] at hallows
    exact hallows.2
  refine ⟨allows_update (fun u _ => h.allows u) trivial, h.fifo, h.waits_goto (fun _ => rfl),
    h.once.erase t, fun u hu => ?_, fun u hu w hw => ?_, fun _ => Or.inl (by simp [hempty])⟩
  · obtain ⟨hut, hu⟩ := (h.once.mem_erase_iff).1 hu
    simpa [hut] using h.removing u hu
  · obtain ⟨hut, hu⟩ := (h.once.mem_erase_iff).1 hu
    rcases List.mem_append.1 hw with hw | hw
    · have hne : w ≠ s.cond.numSems := Nat.ne_of_lt (hc.made w (hc.waitQueue_sub hw))
      simpa [hne] using h.apart u hu w hw
    · simpa [List.mem_singleton.1 hw] using Ne.symm hut

/-- `Signal` selects a thread that waits, if there is one. -/
theorem SynchInv.select (h : SynchInv s) (hc : CondInv s.cond) (ht : s.code t = .appendSignal) :
    SynchInv { s with
      cond := s.cond.select t none
      code := update s.code t .appendUnlock
      signalled := s.signalled ++ s.cond.waitQueue.head?.toList.map s.cond.owner } := by
  have hallows : ∀ u, (update s.code t .appendUnlock u).Allows s.list
      (s.cond.lock.code u) := allows_update (fun u _ => h.allows u) trivial
  have hremoving : ∀ u, (s.code u).Removing →
      (update s.code t .appendUnlock u).Removing :=
    fun u hu => update_of hu (by simp [ht])
  cases hq : s.cond.waitQueue with
  | nil =>
    simp only [CondState.select, hq, List.head?_nil, Option.toList_none, List.map_nil,
      List.append_nil]
    exact ⟨hallows, h.fifo, h.waits_goto (by simp), h.once,
      fun u hu => hremoving u (h.removing u hu), h.apart, fun hne => absurd hq hne⟩
  | cons w rest =>
    have hw : w ∈ s.cond.waitQueue := by
      rw [hq]
      exact List.mem_cons_self
    have hrest : ∀ v ∈ rest, v ∈ s.cond.waitQueue := fun v hv => by
      rw [hq]
      exact List.mem_cons_of_mem _ hv
    have howner := hc.waits w hw
    simp only [CondState.select, hq, List.head?_cons, Option.toList_some, List.map_cons,
      List.map_nil]
    refine ⟨hallows, h.fifo, h.waits_goto (by simp), ?_, fun u hu => ?_, fun u hu v hv => ?_,
      fun _ => ?_⟩
    · refine List.nodup_append.2 ⟨h.once, List.nodup_singleton _, ?_⟩
      rintro a ha b hb rfl
      exact h.apart a ha w hw (List.mem_singleton.1 hb).symm
    · rcases List.mem_append.1 hu with hu | hu
      · exact hremoving u (h.removing u hu)
      · rw [List.mem_singleton.1 hu]
        exact hremoving _ (by simp [h.waits (s.cond.owner w) (by simp [howner])])
    · rcases List.mem_append.1 hu with hu | hu
      · exact h.apart u hu v (hrest v hv)
      · -- two waiting calls of one thread are one
        rw [List.mem_singleton.1 hu]
        intro he
        have hv' := hc.waits v (hrest v hv)
        rw [show s.cond.owner v = s.cond.owner w from he, howner] at hv'
        cases hv'
        have hnd := hc.once
        rw [hc.order, hq] at hnd
        exact (List.nodup_cons.1 (List.nodup_append.1 hnd).2.1).1 hv
    · left
      dsimp only
      rw [List.length_append, List.length_singleton]
      rcases h.coming (List.ne_nil_of_mem hw) with hlen | ⟨hlen, -⟩ <;> omega

/-- The thread stays where it is in `SynchList`. -/
theorem SynchEvent.cond_next {e : CondEvent}
    (hcode : SynchEvent.afterCond e (s.code e.thread) = s.code e.thread)
    (hsig : SynchEvent.signalledAfter s e = s.signalled) :
    (SynchEvent.cond e).next s = { s with cond := e.next s.cond } := by
  simp only [SynchEvent.next, hcode, hsig, update_eq_self]

/-- A statement of the lock or of the condition variable. -/
theorem SynchInv.condStep (h : SynchInv s) (hc : CondInv s.cond) {e : CondEvent}
    (ha : SynchEvent.condAllowed e (s.code e.thread) = true) :
    SynchInv ((SynchEvent.cond e).next s) := by
  -- where the threads in `Wait` are when thread `t` of the condition variable goes on
  have hgoto : ∀ t p, (p.InWait → s.code t = .removeWait) → ∀ u,
      ((s.cond.goto t p).code u).InWait → s.code u = .removeWait := by
    intro t p hp u hu
    simpa using h.waits_goto (q := s.code t) hp u hu
  cases e with
  | lock e =>
    have hnot : ¬ (s.code e.thread).Critical := by
      cases hp : s.code e.thread <;>
        simp [hp] at ha ⊢
    rw [SynchEvent.cond_next rfl rfl]
    refine h.condFrame rfl rfl (fun u hu => ?_) h.waits
    have hne : u ≠ e.thread := by
      rintro rfl
      exact hnot hu
    exact LockEvent.next_code_of_ne hne
  | wait t =>
    cases hp : s.code t <;> simp [hp] at ha
    exact h.wait hc hp
  | semP t w =>
    cases hp : s.code t <;> simp [hp] at ha
    rw [SynchEvent.cond_next rfl rfl]
    simp only [CondEvent.next, CondState.semP]
    split
    · exact h.condFrame rfl rfl (fun _ _ => rfl) (hgoto t _ fun _ => hp)
    · exact h.condFrame rfl rfl (fun _ _ => rfl) h.waits
  | ret t w =>
    cases hp : s.code t <;> simp [hp] at ha
    exact h.ret hp
  | signal t =>
    rw [SynchEvent.cond_next rfl rfl]
    exact h.condFrame rfl rfl (fun _ _ => rfl) (hgoto t _ (by simp))
  | select t caller =>
    cases hp : s.code t <;> simp [hp] at ha
    subst ha
    exact h.select hc hp
  | semV t caller w =>
    rw [SynchEvent.cond_next rfl rfl]
    refine h.condFrame rfl rfl (fun _ _ => rfl) (hgoto t _ ?_)
    cases caller <;> simp
  | broadcast t => simp at ha
  | loop t all => simp at ha

theorem SynchInv.step {e : SynchEvent α} (h : SynchInv s) (hl : LockInv s.cond.lock)
    (hc : CondInv s.cond) (hst : SynchStep s e s') : SynchInv s' := by
  obtain ⟨hen, rfl⟩ := hst
  cases e with
  | append t item | remove t =>
    have ht : s.code t = .outside := hen
    exact h.goto (by simp [ht]) (by simp [ht]) trivial (by simp [ht])
  | listAppend t item => exact h.listAppend hl hen.1 hen.2
  | test t =>
    obtain ⟨ht, hold⟩ := hen
    refine h.goto (by simp [ht]) (by simp [ht]) ?_ ?_ <;> split_ifs with hlist <;> simp_all
  | take t => exact h.takeItem hl hen
  | done t =>
    obtain ⟨ht, -⟩ := hen
    refine h.goto ?_ ?_ trivial ?_ <;> rcases ht with ht | ht <;> simp [ht]
  | cond e => exact h.condStep hc hen.2

theorem SynchReach.inv (h : SynchReach s) : SynchInv s := by
  refine Reach.invariant_of (J := fun s => LockInv s.cond.lock ∧ CondInv s.cond)
    (fun s hs => ⟨(SynchReach.cond hs).lock.inv, (SynchReach.cond hs).inv⟩) ?_
    (fun _ _ _ hJ hs hst => hs.step hJ.1 hJ.2 hst) h
  rintro s ⟨cond, ⟨sems, owner, rfl⟩, rfl⟩
  exact ⟨fun _ => trivial, by simp, by simp, List.nodup_nil, by simp, by simp,
    fun hq => absurd rfl hq⟩

end invariant

/-- **`SynchList` is a blocking FIFO queue.**  The items that `Remove` has taken, in this order, are
the first of the items that `Append` has appended, in this order, and the others are in the list;
`Remove` never takes an item from an empty list; and while a thread is queued on `listEmpty`, there
are at most as many items in the list as threads that have been signalled and are on their way to
take one, and one more only while an `Append` that has put its item into the list has not come to
the `Remove` of its `Signal`. -/
theorem synchList_fifo {s : SynchState α} (h : SynchReach s) :
    s.removed ++ s.list.map some = s.appended.map some ∧
    (∀ t s', SynchStep s (.take t) s' → s.list ≠ []) ∧
    (s.signalled.Nodup ∧ ∀ t ∈ s.signalled, (s.code t).Removing ∧
      ∀ w ∈ s.cond.waitQueue, s.cond.owner w ≠ t) ∧
    (s.cond.waitQueue ≠ [] → s.list.length ≤ s.signalled.length ∨
      s.list.length ≤ s.signalled.length + 1 ∧ ∃ t, s.code t = .appendSignal) := by
  have hi := h.inv
  refine ⟨hi.fifo, ?_, ⟨hi.once, fun t ht => ⟨hi.removing t ht, hi.apart t ht⟩⟩, hi.coming⟩
  rintro t s' ⟨ht, -⟩
  have hallows := hi.allows t
  simp only [show s.code t = .removeTake from ht, SynchCode.Allows] at hallows
  exact hallows.2

/-! ### A run -/

/-- An empty list of numbers. -/
def newSynchList : SynchState ℕ := ⟨newCondition, [], fun _ => .outside, [], [], []⟩

theorem newSynchList_init : SynchInit newSynchList := ⟨_, newCondition_init, rfl⟩

/-- Thread 1 waits in `Remove`, and thread 0 comes to the `Signal` of an `Append`. -/
def beforeSignal : List (SynchEvent ℕ) :=
  [.remove 1] ++ (acquires 1).map .cond ++ [.test 1, .cond (.wait 1)] ++
    (releases 1).map .cond ++ [.cond (.semP 1 0), .append 0 7] ++ (acquires 0).map .cond ++
    [.listAppend 0 7]

/-- The run of `beforeSignal` ends in a state with an item beside a thread that sleeps. -/
theorem beforeSignal_run : ∃ s, SynchReach s ∧ s.list = [7] ∧ s.cond.waitQueue = [0] ∧
    s.cond.owner 0 = 1 ∧ 1 ∈ (s.cond.sems 0).queue ∧ s.cond.selected = [] ∧ s.signalled = [] := by
  exact Reach.exists_run (exec_step SynchEvent.enabled SynchEvent.next)
    (.init newSynchList_init) beforeSignal (by decide +kernel)

/-- Before its `Signal`, an `Append` has put an item into the list that nobody is coming to take. -/
theorem synchList_item_unsignalled : ¬ ∀ s : SynchState ℕ, SynchReach s →
    s.cond.waitQueue ≠ [] → s.list.length ≤ s.cond.selected.length := by
  intro hall
  obtain ⟨s, hr, hlist, hq, -, -, hsel, -⟩ := beforeSignal_run
  have hlen := hall s hr (by simp [hq])
  simp [hlist, hsel] at hlen

theorem synchList_fifo_beforeSignal :
    ∃ s : SynchState ℕ, SynchReach s ∧ s.cond.waitQueue ≠ [] ∧ s.list.length = 1 ∧
      ∃ t, s.code t = .appendSignal := by
  obtain ⟨s, hr, hlist, hq, -, -, -, hsig⟩ := beforeSignal_run
  have hne : s.cond.waitQueue ≠ [] := by simp [hq]
  refine ⟨s, hr, hne, by simp [hlist], ?_⟩
  rcases (synchList_fifo hr).2.2.2 hne with hlen | ⟨-, ht⟩
  · simp [hlist, hsig] at hlen
  · exact ht

end Nachos
