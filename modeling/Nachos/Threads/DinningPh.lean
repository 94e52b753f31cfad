import Nachos.Threads.Condition

/-!
# The dining philosophers

The monitor of `threads/dinningph.cc`, used by five threads as `Philo` of `threads/threadtest.cc`
does: philosopher `i` is thread `i`, and calls `pickup(i)` and `putdown(i)` in turn.  A thread may
be preempted between any two statements, in the lock and in the conditions too.

* The lock is that of `Nachos.Threads.Lock`, and `self[k]` is a condition of
  `Nachos.Threads.Condition`: seen from one condition, every run is one of that module, with the
  other philosophers outside of it (`PhReach.cond`).
* `Outline` says what holds where a philosopher is.  Whoever changes `state` has the lock, so that
  the others are where it does not matter.
-/

namespace Nachos

open Function Transition

/-- The values of `state`. -/
inductive PhState
  | Thinking
  | Hungry
  | Eating
  deriving DecidableEq, Repr

/-- Who has called `test`: `pickup`, or `putdown` for a neighbour. -/
inductive PhCaller
  | pickup
  | left
  | right
  deriving DecidableEq, Repr

/-- Where a philosopher is. -/
inductive PhCode
  -- `putdown` has returned, or `pickup` has not been called yet
  | thinking
  -- `pickup`: in `dp->Acquire()`; at its `if`; at `Wait`; in `Wait`; in `dp->Release()`
  | acquirePickup
  | ifHungry
  | callWait
  | inWait
  | releasePickup
  -- `pickup` has returned
  | eating
  -- `putdown`: in `dp->Acquire()`; in `dp->Release()`
  | acquirePutdown
  | releasePutdown
  -- `test(k)`: at its `if`; at `state[k] = Eating`; at `Signal`; in `Signal`
  | test (k : Fin 5) (caller : PhCaller)
  | eat (k : Fin 5) (caller : PhCaller)
  | callSignal (k : Fin 5) (caller : PhCaller)
  | inSignal (k : Fin 5) (caller : PhCaller)
  deriving DecidableEq, Repr

/-- The code after `test`. -/
def PhCode.afterTest (who : Fin 5) : PhCaller → PhCode
  | .pickup => .ifHungry
  | .left => .test (who + 1) .right
  | .right => .releasePutdown

/-- A condition that is used with the lock `l`. -/
def CondState.withLock (l : LockState) (c : CondState) : CondState := { c with lock := l }

theorem CondState.withLock_eq {l : LockState} {c : CondState} (h : c.lock = l) :
    c.withLock l = c := by
  subst h
  rfl

/-- `class DinningPh`, and where the philosophers are.  The lock of the conditions is `dp`. -/
structure DinningPh where
  dp : LockState
  self : Fin 5 → CondState
  state : Fin 5 → PhState
  code : Fin 5 → PhCode

namespace DinningPh

/-- The condition `self[k]` with its lock. -/
def cond (s : DinningPh) (k : Fin 5) : CondState := (s.self k).withLock s.dp

/-- Continue philosopher `i` at `p`. -/
def goto (i : Fin 5) (p : PhCode) (s : DinningPh) : DinningPh :=
  { s with code := update s.code i p }

/-- `state[k] = x`. -/
def setState (k : Fin 5) (x : PhState) (s : DinningPh) : DinningPh :=
  { s with state := update s.state k x }

/-- A statement of `self[k]`. -/
def onCond (k : Fin 5) (e : CondEvent) (s : DinningPh) : DinningPh :=
  { s with self := update s.self k (e.next (s.cond k)) }

end DinningPh

/-- The statements, the philosopher who executes them, and what is at hand. -/
inductive PhEvent
  | lock (i : Fin 5) (e : LockEvent)
  | pickup (i : Fin 5)
  | hungry (i : Fin 5)
  | ifHungry (i : Fin 5)
  | wait (i : Fin 5)
  | semP (i : Fin 5) (w : ℕ)
  | waitReturns (i : Fin 5) (w : ℕ)
  | pickupReturns (i : Fin 5)
  | putdown (i : Fin 5)
  | thinking (i : Fin 5)
  | putdownReturns (i : Fin 5)
  | test (i k : Fin 5) (caller : PhCaller)
  | eat (i k : Fin 5) (caller : PhCaller)
  | signal (i k : Fin 5) (caller : PhCaller)
  | select (i k : Fin 5) (caller : PhCaller)
  | semV (i k : Fin 5) (caller : PhCaller) (w : ℕ)
  | signalReturns (i k : Fin 5) (caller : PhCaller)
  deriving DecidableEq, Repr

namespace PhEvent

/-- Who executes. -/
def who : PhEvent → Fin 5
  | lock i _ => i
  | pickup i => i
  | hungry i => i
  | ifHungry i => i
  | wait i => i
  | semP i _ => i
  | waitReturns i _ => i
  | pickupReturns i => i
  | putdown i => i
  | thinking i => i
  | putdownReturns i => i
  | test i _ _ => i
  | eat i _ _ => i
  | signal i _ _ => i
  | select i _ _ => i
  | semV i _ _ _ => i
  | signalReturns i _ _ => i

/-- Which statements of the lock a philosopher may execute: those of the `Acquire` or `Release` it
is in; in `Wait` those of `Release`, and then those of `Acquire`. -/
def lockAllowed (e : LockEvent) : PhCode → CondCode → Bool
  | .acquirePickup, _ => e.ofAcquire
  | .acquirePutdown, _ => e.ofAcquire
  | .releasePickup, _ => !e.ofAcquire
  | .releasePutdown, _ => !e.ofAcquire
  | .inWait, .waiting _ => !e.ofAcquire
  | .inWait, .waking _ => e.ofAcquire
  | _, _ => false

/-- When a statement can be executed. -/
def enabled (s : DinningPh) : PhEvent → Prop
  | lock i e => e.thread = i ∧ e.enabled s.dp ∧ lockAllowed e (s.code i) ((s.cond i).code i) = true
  | pickup i => s.code i = .thinking
  | hungry i => s.code i = .acquirePickup ∧ s.dp.code i = .holds
  | ifHungry i => s.code i = .ifHungry
  | wait i => s.code i = .callWait ∧ (CondEvent.wait i).enabled (s.cond i)
  | semP i w => s.code i = .inWait ∧ (CondEvent.semP i w).enabled (s.cond i)
  | waitReturns i w => s.code i = .inWait ∧ (CondEvent.ret i w).enabled (s.cond i)
  | pickupReturns i => s.code i = .releasePickup ∧ s.dp.code i = .outside
  | putdown i => s.code i = .eating
  | thinking i => s.code i = .acquirePutdown ∧ s.dp.code i = .holds
  | putdownReturns i => s.code i = .releasePutdown ∧ s.dp.code i = .outside
  | test i k caller => s.code i = .test k caller
  | eat i k caller => s.code i = .eat k caller
  | signal i k caller => s.code i = .callSignal k caller ∧ (CondEvent.signal i).enabled (s.cond k)
  | select i k caller =>
    s.code i = .inSignal k caller ∧ (CondEvent.select i none).enabled (s.cond k)
  | semV i k caller w =>
    s.code i = .inSignal k caller ∧ (CondEvent.semV i none w).enabled (s.cond k)
  | signalReturns i k caller => s.code i = .inSignal k caller ∧ (s.cond k).code i = .outside

instance decidableEnabled (s : DinningPh) (e : PhEvent) : Decidable (e.enabled s) := by
  cases e <;> unfold enabled <;> infer_instance

/-- Execute it. -/
def next (s : DinningPh) : PhEvent → DinningPh
  | lock _ e => { s with dp := e.next s.dp }
  | pickup i => s.goto i .acquirePickup
  | hungry i => (s.setState i .Hungry).goto i (.test i .pickup)
  | ifHungry i => s.goto i (if s.state i = .Hungry then .callWait else .releasePickup)
  | wait i => (s.onCond i (.wait i)).goto i .inWait
  | semP i w => s.onCond i (.semP i w)
  | waitReturns i w => (s.onCond i (.ret i w)).goto i .releasePickup
  | pickupReturns i => s.goto i .eating
  | putdown i => s.goto i .acquirePutdown
  | thinking i => (s.setState i .Thinking).goto i (.test (i + 4) .left)
  | putdownReturns i => s.goto i .thinking
  | test i k caller =>
    s.goto i (if s.state (k + 4) ≠ .Eating ∧ s.state k = .Hungry ∧ s.state (k + 1) ≠ .Eating
      then .eat k caller else .afterTest i caller)
  | eat i k caller => (s.setState k .Eating).goto i (.callSignal k caller)
  | signal i k caller => (s.onCond k (.signal i)).goto i (.inSignal k caller)
  | select i k _ => s.onCond k (.select i none)
  | semV i k _ w => s.onCond k (.semV i none w)
  | signalReturns i _ caller => s.goto i (.afterTest i caller)

end PhEvent

/-- One step of one philosopher. -/
def PhStep (s : DinningPh) (e : PhEvent) (s' : DinningPh) : Prop := e.enabled s ∧ s' = e.next s

/-- `DinningPh::DinningPh`: all philosophers think. -/
def PhInit (s : DinningPh) : Prop :=
  s.dp = ⟨none, ⟨1, []⟩, fun _ => .outside⟩ ∧ (∀ k, CondInit (s.cond k)) ∧
    (∀ i, s.state i = .Thinking) ∧ ∀ i, s.code i = .thinking

/-- The states of all runs. -/
def PhReach (s : DinningPh) : Prop := Reach PhInit PhStep s

/-! ### The conditions -/

section conditions

variable {s s' : DinningPh} {e : PhEvent} {i j k : Fin 5}

/-- The statements of a condition leave the lock alone. -/
theorem CondEvent.next_lock {s : CondState} {e : CondEvent} (he : ∀ e', e ≠ .lock e') :
    (e.next s).lock = s.lock := by
  cases e with
  | lock e' => exact absurd rfl (he e')
  | semP t w =>
    simp only [CondEvent.next, CondState.semP]
    split <;> rfl
  | select t caller =>
    simp only [CondEvent.next, CondState.select]
    split <;> rfl
  | _ => rfl

theorem DinningPh.cond_onCond_self {e : CondEvent} (he : ∀ e', e ≠ .lock e') :
    (s.onCond k e).cond k = e.next (s.cond k) := by
  change (update s.self k (e.next (s.cond k)) k).withLock s.dp = _
  rw [update_self]
  exact CondState.withLock_eq (CondEvent.next_lock he)

theorem DinningPh.cond_onCond_of_ne {e : CondEvent} (hj : j ≠ k) :
    (s.onCond k e).cond j = s.cond j := by
  change (update s.self k (e.next (s.cond k)) j).withLock s.dp = _
  rw [update_of_ne hj]
  rfl

/-- A step is one of every condition, or leaves it alone. -/
inductive CondMove (s : DinningPh) (e : PhEvent) (s' : DinningPh) (k : Fin 5) : Prop
  | same : s'.cond k = s.cond k → CondMove s e s' k
  | lock (e' : LockEvent) : e = .lock e.who e' → e'.thread = e.who → e'.enabled s.dp →
      s'.cond k = { s.cond k with lock := e'.next s.dp } → CondMove s e s' k
  | cond (e' : CondEvent) : (∀ e'', e' ≠ .lock e'') → e'.thread = e.who →
      CondStep (s.cond k) e' (s'.cond k) → CondMove s e s' k

theorem condMove_onCond (e : PhEvent) {e' : CondEvent} (he : ∀ e'', e' ≠ .lock e'')
    (hwho : e'.thread = e.who) (hen : e'.enabled (s.cond k))
    (j : Fin 5) (hs' : s'.cond j = (s.onCond k e').cond j) : CondMove s e s' j := by
  by_cases hj : j = k
  · subst hj
    exact .cond e' he hwho ⟨hen, hs'.trans (DinningPh.cond_onCond_self he)⟩
  · exact .same (hs'.trans (DinningPh.cond_onCond_of_ne hj))

theorem PhStep.condMove (h : PhStep s e s') (k : Fin 5) : CondMove s e s' k := by
  obtain ⟨hen, rfl⟩ := h
  cases e with
  | lock i e' => exact .lock e' rfl hen.1 hen.2.1 rfl
  | wait i =>
    refine condMove_onCond (.wait i) (by simp) rfl hen.2 k ?_
    rfl
  | semP i w =>
    refine condMove_onCond (.semP i w) (by simp) rfl hen.2 k ?_
    rfl
  | waitReturns i w =>
    refine condMove_onCond (.waitReturns i w) (by simp) rfl hen.2 k ?_
    rfl
  | signal i k' caller =>
    refine condMove_onCond (.signal i k' caller) (by simp) rfl hen.2 k ?_
    rfl
  | select i k' caller =>
    refine condMove_onCond (.select i k' caller) (by simp) rfl hen.2 k ?_
    rfl
  | semV i k' caller w =>
    refine condMove_onCond (.semV i k' caller w) (by simp) rfl hen.2 k ?_
    rfl
  | _ => exact .same rfl

/-- A step moves no other philosopher. -/
theorem PhStep.code_of_ne (h : PhStep s e s') (hj : j ≠ e.who) : s'.code j = s.code j := by
  obtain ⟨-, rfl⟩ := h
  cases e with
  | lock i e' => rfl
  | semP i w => rfl
  | select i k caller => rfl
  | semV i k caller w => rfl
  | _ => exact update_of_ne hj ..

theorem PhStep.cond_code_of_ne (h : PhStep s e s') (hj : j ≠ e.who) (k : Fin 5) :
    (s'.cond k).code j = (s.cond k).code j := by
  have hval : (e.who : ℕ) ≠ j := fun he => hj (Fin.ext he.symm)
  cases h.condMove k with
  | same heq => rw [heq]
  | lock e' _ _ _ heq => rw [heq]
  | cond e' _ hwho hst => exact hst.code_of_ne (by rwa [hwho])

theorem PhStep.dp_code_of_ne (h : PhStep s e s') (hj : j ≠ e.who) :
    s'.dp.code j = s.dp.code j := by
  obtain ⟨hen, rfl⟩ := h
  cases e with
  | lock i e' =>
    have hthread : e'.thread = i := hen.1
    refine LockEvent.next_code_of_ne ?_
    rw [hthread]
    exact fun he => hj (Fin.ext he)
  | _ => rfl

/-- The condition that a philosopher may be in. -/
def PhCode.place (i : Fin 5) : PhCode → Option (Fin 5)
  | .inWait => some i
  | .inSignal k _ => some k
  | _ => none

/-- The philosophers are outside of the other conditions. -/
def PhPlaced (s : DinningPh) : Prop :=
  ∀ i k, (s.code i).place i ≠ some k → (s.cond k).code i = .outside

theorem PhPlaced.onCond (h : PhPlaced s) (e' : CondEvent)
    (hplace : (s.code i).place i = none ∨ (s.code i).place i = some k) (hjk : j ≠ k) :
    ((s.onCond k e').cond j).code i = .outside := by
  rw [DinningPh.cond_onCond_of_ne hjk]
  refine h i j ?_
  rcases hplace with hp | hp
  · simp [hp]
  · rw [hp]
    exact fun hkj => hjk (Option.some.inj hkj).symm

theorem PhPlaced.step (h : PhPlaced s) (hst : PhStep s e s') : PhPlaced s' := by
  intro i k hk
  by_cases hi : i = e.who
  · subst hi
    obtain ⟨hen, rfl⟩ := hst
    -- a philosopher in no condition stays outside, unless the statement is one of a condition
    have hnone : (s.code e.who).place e.who = none → (s.cond k).code e.who = .outside :=
      fun hp => h _ k (by simp [hp])
    cases e with
    | lock i e' => exact h i k hk
    | pickup i | ifHungry i | putdown i | test i k' caller | eat i k' caller =>
      exact hnone (congrArg (PhCode.place i) hen)
    | hungry i | pickupReturns i | thinking i | putdownReturns i =>
      exact hnone (congrArg (PhCode.place i) hen.1)
    | wait i =>
      refine h.onCond (.wait i) (Or.inl (congrArg (PhCode.place i) hen.1)) fun hki => hk ?_
      change (update s.code i .inWait i).place i = some k
      rw [update_self, hki]
      rfl
    | semP i w =>
      have hplace : (s.code i).place i = some i := congrArg (PhCode.place i) hen.1
      refine h.onCond (.semP i w) (Or.inr hplace) fun hki => hk ?_
      rw [hki]
      exact hplace
    | waitReturns i w =>
      by_cases hki : k = i
      · subst hki
        have hself : (s.onCond k (.ret k w)).cond k = (CondEvent.ret k w).next (s.cond k) :=
          DinningPh.cond_onCond_self (by simp)
        exact (congrArg (fun c => c.code k) hself).trans CondState.goto_code_self
      · exact h.onCond (.ret i w) (Or.inr (congrArg (PhCode.place i) hen.1)) hki
    | signal i k' caller =>
      refine h.onCond (.signal i) (Or.inl (congrArg (PhCode.place i) hen.1))
        fun hkk => hk ?_
      change (update s.code i (.inSignal k' caller) i).place i = some k
      rw [update_self, hkk]
      rfl
    | select i k' caller =>
      have hplace : (s.code i).place i = some k' := congrArg (PhCode.place i) hen.1
      refine h.onCond (.select i none) (Or.inr hplace) fun hkk => hk ?_
      rw [hkk]
      exact hplace
    | semV i k' caller w =>
      have hplace : (s.code i).place i = some k' := congrArg (PhCode.place i) hen.1
      refine h.onCond (.semV i none w) (Or.inr hplace) fun hkk => hk ?_
      rw [hkk]
      exact hplace
    | signalReturns i k' caller =>
      by_cases hkk : k = k'
      · rw [hkk]
        exact hen.2
      · have hplace : (s.code i).place i = some k' := congrArg (PhCode.place i) hen.1
        refine h i k ?_
        rw [hplace]
        exact fun he => hkk (Option.some.inj he).symm
  · rw [hst.code_of_ne hi] at hk
    rw [hst.cond_code_of_ne hi]
    exact h i k hk

theorem PhReach.placed (h : PhReach s) : PhPlaced s := by
  refine Reach.invariant (I := PhPlaced) ?_ (fun _ _ _ hs hst => hs.step hst) h
  rintro s ⟨-, hcond, -⟩ i k -
  obtain ⟨sems, owner, heq⟩ := hcond k
  rw [heq]

/-- Seen from `self[k]`, the statements of the lock are executed where it allows them. -/
theorem PhPlaced.lockAllowed (h : PhPlaced s) {e' : LockEvent}
    (ha : PhEvent.lockAllowed e' (s.code i) ((s.cond i).code i) = true) (k : Fin 5) :
    CondEvent.lockAllowed e' ((s.cond k).code i) := by
  by_cases hk : (s.code i).place i = some k
  · cases hc : s.code i with
    | inWait =>
      rw [hc] at hk ha
      obtain rfl : i = k := Option.some.inj hk
      cases hq : (s.cond i).code i with
      | waiting w =>
        rw [hq] at ha
        exact (Bool.not_eq_eq_eq_not.1 ha : e'.ofAcquire = !true)
      | waking w =>
        rw [hq] at ha
        exact ha
      | _ =>
        rw [hq] at ha
        cases ha
    | inSignal k' caller =>
      rw [hc] at ha
      cases ha
    | _ =>
      rw [hc] at hk
      cases hk
  · rw [h i k hk]
    trivial

/-- Every run is a run of the condition `self[k]`. -/
theorem PhReach.cond (h : PhReach s) (k : Fin 5) : CondReach (s.cond k) := by
  refine Reach.simulation (fun s => s.cond k) (fun s hs => hs.2.1 k)
    (fun s e s' hr hst => ?_) h
  cases hst.condMove k with
  | same heq => exact Or.inl heq
  | lock e' he hwho hen heq =>
    refine Or.inr ⟨.lock e', ⟨hen, ?_⟩, heq⟩
    obtain ⟨hst, -⟩ := hst
    rw [he] at hst
    rw [hwho]
    exact (PhReach.placed hr).lockAllowed hst.2.2 k
  | cond e' _ _ hc => exact Or.inr ⟨e', hc⟩

theorem PhReach.lock (h : PhReach s) : LockReach s.dp := (h.cond 0).lock

end conditions

/-! ### What holds where -/

/-- What holds where philosopher `i` is. -/
def Outline (s : DinningPh) (i : Fin 5) : PhCode → Prop
  | .thinking => True
  | .acquirePickup => True
  | .ifHungry => s.dp.code i = .holds ∧ s.state i ≠ .Thinking
  | .callWait => s.dp.code i = .holds
  | .inWait => ∀ w, (s.cond i).code i = .waiting w ∨ (s.cond i).code i = .waking w →
      w ∈ (s.cond i).selected → s.state i = .Eating
  | .releasePickup => s.state i = .Eating
  | .eating => s.state i = .Eating
  | .acquirePutdown => s.state i = .Eating
  | .releasePutdown => True
  | .test k caller => s.dp.code i = .holds ∧ (caller = .pickup → k = i ∧ s.state i = .Hungry)
  | .eat k caller => s.dp.code i = .holds ∧ (caller = .pickup → k = i) ∧
      s.state (k + 4) ≠ .Eating ∧ s.state k = .Hungry ∧ s.state (k + 1) ≠ .Eating
  | .callSignal k caller => s.dp.code i = .holds ∧ (caller = .pickup → k = i) ∧
      s.state k = .Eating
  | .inSignal k caller => s.dp.code i = .holds ∧ (caller = .pickup → k = i) ∧
      s.state k = .Eating

/-- The outline holds for every philosopher, and no neighbours eat. -/
structure PhInv (s : DinningPh) : Prop where
  outline : ∀ i, Outline s i (s.code i)
  apart : ∀ k, s.state k = .Eating → s.state (k + 1) ≠ .Eating

section outline

variable {s s' : DinningPh} {e : PhEvent} {i j k : Fin 5}

theorem PhInv.at (h : PhInv s) {p : PhCode} (hp : s.code i = p) : Outline s i p := hp ▸ h.outline i

/-- What philosopher `j` relies on: it keeps its place in the lock and in its condition; if it is
selected, or eats, it goes on eating; and while it has the lock nobody else changes `state`. -/
theorem Outline.frame {p : PhCode} (h : Outline s j p) (hdp : s'.dp.code j = s.dp.code j)
    (hcode : (s'.cond j).code j = (s.cond j).code j)
    (hsel : ∀ w ∈ (s'.cond j).selected, w ∈ (s.cond j).selected ∨ s'.state j = .Eating)
    (heat : s.state j = .Eating → s'.state j = .Eating)
    (hstate : s.dp.code j = .holds → s'.state = s.state) : Outline s' j p := by
  cases p with
  | thinking | acquirePickup | releasePutdown => trivial
  | ifHungry | test k caller | eat k caller | callSignal k caller | inSignal k caller =>
    refine ⟨hdp.trans h.1, ?_⟩
    rw [hstate h.1]
    exact h.2
  | callWait => exact hdp.trans h
  | inWait =>
    intro w hw hws
    rw [hcode] at hw
    rcases hsel w hws with hws | hws
    · exact heat (h w hw hws)
    · exact hws
  | releasePickup | eating | acquirePutdown => exact heat h

/-- How `state` changes in a step: not at all, or it is changed by somebody who has the lock and who
sets its own entry, or makes somebody eat. -/
theorem PhStep.state_cases (h : PhInv s) (hst : PhStep s e s') :
    s'.state = s.state ∨ s.dp.code e.who = .holds ∧
      ((∃ x, x ≠ .Eating ∧ s'.state = update s.state e.who x) ∨
        ∃ k caller, s.code e.who = .eat k caller ∧
          s'.state = update s.state k .Eating) := by
  obtain ⟨hen, rfl⟩ := hst
  cases e with
  | hungry i => exact Or.inr ⟨hen.2, Or.inl ⟨.Hungry, by simp, rfl⟩⟩
  | thinking i => exact Or.inr ⟨hen.2, Or.inl ⟨.Thinking, by simp, rfl⟩⟩
  | eat i k caller =>
    exact Or.inr ⟨(h.at hen).1, Or.inr ⟨k, caller, hen, rfl⟩⟩
  | _ => exact Or.inl rfl

/-- Only `Signal` selects. -/
theorem CondEvent.next_selected {s : CondState} {e : CondEvent}
    (he : ∀ t caller, e ≠ .select t caller) : (e.next s).selected = s.selected := by
  cases e with
  | select t caller => exact absurd rfl (he t caller)
  | semP t w =>
    simp only [CondEvent.next, CondState.semP]
    split <;> rfl
  | _ => rfl

theorem DinningPh.selected_onCond {e' : CondEvent} (he : ∀ e'', e' ≠ .lock e'')
    (hsel : ∀ t caller, e' ≠ .select t caller) :
    ((s.onCond k e').cond j).selected = (s.cond j).selected := by
  by_cases hj : j = k
  · subst hj
    rw [DinningPh.cond_onCond_self he]
    exact CondEvent.next_selected hsel
  · rw [DinningPh.cond_onCond_of_ne hj]

/-- A step that selects a `Wait` is taken in a `Signal` for a philosopher who eats. -/
theorem PhStep.selected_cases (h : PhInv s) (hst : PhStep s e s') (j : Fin 5) :
    (s'.cond j).selected = (s.cond j).selected ∨ s'.state j = .Eating := by
  obtain ⟨hen, rfl⟩ := hst
  cases e with
  | wait i | semP i w | waitReturns i w | signal i k caller | semV i k caller w =>
    exact Or.inl (DinningPh.selected_onCond (by simp) (by simp))
  | select i k caller =>
    by_cases hj : j = k
    · subst hj
      exact Or.inr (h.at hen.1).2.2
    · exact Or.inl (congrArg CondState.selected (DinningPh.cond_onCond_of_ne hj))
  | _ => exact Or.inl rfl

/-- The steps of the others do no harm. -/
theorem PhInv.others (h : PhInv s) (hl : LockInv s.dp) (hst : PhStep s e s') (hj : j ≠ e.who) :
    Outline s' j (s'.code j) := by
  rw [hst.code_of_ne hj]
  refine (h.outline j).frame (hst.dp_code_of_ne hj) (hst.cond_code_of_ne hj j) (fun w hw => ?_)
    (fun heat => ?_) fun hold => ?_
  · rcases hst.selected_cases h j with hsel | hsel
    · exact Or.inl (hsel ▸ hw)
    · exact Or.inr hsel
  · rcases hst.state_cases h with hs | ⟨-, ⟨x, -, hs⟩ | ⟨k, caller, -, hs⟩⟩
    · rw [hs, heat]
    · rw [hs, update_of_ne hj, heat]
    · rw [hs]
      by_cases hjk : j = k
      · rw [hjk, update_self]
      · rw [update_of_ne hjk, heat]
  · rcases hst.state_cases h with hs | ⟨hwho, -⟩
    · exact hs
    · exact absurd (Fin.ext (hl.holds_unique hold hwho)) hj

theorem succ_ne_self : ∀ k : Fin 5, k + 1 ≠ k := by decide

/-- The left neighbour of the right neighbour. -/
theorem succ_add_four : ∀ k : Fin 5, k + 1 + 4 = k := by decide

/-- A philosopher begins to eat only between two who do not. -/
theorem PhInv.apart_step (h : PhInv s) (hst : PhStep s e s') (k : Fin 5)
    (hk : s'.state k = .Eating) : s'.state (k + 1) ≠ .Eating := by
  intro hk'
  rcases hst.state_cases h with hs | ⟨-, ⟨x, hx, hs⟩ | ⟨m, caller, hcode, hs⟩⟩
  · rw [hs] at hk hk'
    exact h.apart k hk hk'
  · rw [hs] at hk hk'
    exact h.apart k (Update.of_update_eq hk hx).2 (Update.of_update_eq hk' hx).2
  · obtain ⟨-, -, hleft, -, hright⟩ := h.at hcode
    rw [hs] at hk hk'
    by_cases hkm : k = m
    · subst hkm
      rw [update_of_ne (succ_ne_self k)] at hk'
      exact hright hk'
    · rw [update_of_ne hkm] at hk
      by_cases hkm' : k + 1 = m
      · rw [← hkm', succ_add_four k] at hleft
        exact hleft hk
      · rw [update_of_ne hkm'] at hk'
        exact h.apart k hk hk'

theorem DinningPh.goto_code_self {p : PhCode} : (s.goto i p).code i = p := update_self ..

/-- It is enough that the outline holds where the philosopher goes. -/
theorem Outline.goto {p : PhCode} (h : Outline (s.goto i p) i p) :
    Outline (s.goto i p) i ((s.goto i p).code i) := by
  rwa [DinningPh.goto_code_self]

/-- After `test`. -/
theorem outline_afterTest {caller : PhCaller} (hold : s.dp.code i = .holds)
    (hpickup : caller = .pickup → s.state i ≠ .Thinking) :
    Outline (s.goto i (.afterTest i caller)) i (.afterTest i caller) := by
  cases caller with
  | pickup => exact ⟨hold, hpickup rfl⟩
  | left => exact ⟨hold, fun hc => by cases hc⟩
  | right => trivial

/-- A philosopher in the code of the lock. -/
theorem PhInv.lockStep (h : PhInv s) {e' : LockEvent}
    (ha : PhEvent.lockAllowed e' (s.code i) ((s.cond i).code i) = true) :
    Outline { s with dp := e'.next s.dp } i (s.code i) := by
  have hi := h.outline i
  cases hc : s.code i with
  | thinking | acquirePickup | releasePutdown => trivial
  | releasePickup | acquirePutdown | eating | inWait =>
    rw [hc] at hi
    exact hi
  | _ =>
    rw [hc] at ha
    cases ha

/-- `P` on the semaphore of a `Wait` does not change which one it is. -/
theorem CondState.semP_code {c : CondState} {t v w : ℕ} (h : c.code t = .waiting w)
    (hv : (c.semP t w).code t = .waiting v ∨ (c.semP t w).code t = .waking v) : v = w := by
  unfold CondState.semP at hv
  split_ifs at hv with hp
  · rw [CondState.goto_code_self] at hv
    rcases hv with hv | hv
    · cases hv
    · exact (CondCode.waking.inj hv).symm
  · change c.code t = _ ∨ c.code t = _ at hv
    rw [h] at hv
    rcases hv with hv | hv
    · exact (CondCode.waiting.inj hv).symm
    · cases hv

/-- A philosopher's own step leads to where the outline holds. -/
theorem PhInv.own (h : PhInv s) (hc : ∀ k, CondInv (s.cond k)) (hst : PhStep s e s') :
    Outline s' e.who (s'.code e.who) := by
  obtain ⟨hen, rfl⟩ := hst
  cases e with
  | lock i e' => exact h.lockStep hen.2.2
  | pickup i => exact Outline.goto trivial
  | hungry i => exact Outline.goto ⟨hen.2, fun _ => ⟨rfl, update_self ..⟩⟩
  | ifHungry i =>
    obtain ⟨hold, hstate⟩ := h.at hen
    refine Outline.goto ?_
    split_ifs with hhungry
    · exact hold
    · show s.state i = .Eating
      cases hs : s.state i with
      | Thinking => exact absurd hs hstate
      | Hungry => exact absurd hs hhungry
      | Eating => rfl
  | wait i =>
    refine Outline.goto fun w hw hsel => ?_
    have hcond : (s.onCond i (.wait i)).cond i = (s.cond i).enqueue i :=
      DinningPh.cond_onCond_self (e := .wait i) (by simp)
    change ((s.onCond i (.wait i)).cond i).code i = _ ∨ ((s.onCond i (.wait i)).cond i).code i = _
      at hw
    change w ∈ ((s.onCond i (.wait i)).cond i).selected at hsel
    rw [hcond] at hw hsel
    obtain rfl : (s.cond i).numSems = w := by
      simpa [CondState.enqueue] using hw
    -- the semaphore of this `Wait` is new
    exact absurd ((hc i).made _ ((hc i).selected_sub hsel)) (lt_irrefl _)
  | semP i w =>
    show Outline _ i (s.code i)
    rw [show s.code i = _ from hen.1]
    intro v hv hsel
    have hcond : (s.onCond i (.semP i w)).cond i = (s.cond i).semP i w :=
      DinningPh.cond_onCond_self (e := .semP i w) (by simp)
    have hselected : ((s.cond i).semP i w).selected = (s.cond i).selected :=
      CondEvent.next_selected (e := .semP i w) (by simp)
    rw [PhEvent.next, hcond] at hv hsel
    rw [hselected] at hsel
    have hvw : v = w := CondState.semP_code hen.2.1 hv
    subst hvw
    exact h.at hen.1 v (Or.inl hen.2.1) hsel
  | waitReturns i w =>
    exact Outline.goto (h.at hen.1 w (Or.inr hen.2.1) ((hc i).waking i w hen.2.1).1)
  | pickupReturns i => exact Outline.goto (h.at hen.1)
  | putdown i => exact Outline.goto (h.at hen)
  | thinking i => exact Outline.goto ⟨hen.2, fun hcaller => by cases hcaller⟩
  | putdownReturns i => exact Outline.goto trivial
  | test i k caller =>
    obtain ⟨hold, hpickup⟩ := h.at hen
    refine Outline.goto ?_
    by_cases hfree : s.state (k + 4) ≠ .Eating ∧ s.state k = .Hungry ∧ s.state (k + 1) ≠ .Eating
    · rw [if_pos hfree]
      exact ⟨hold, fun hcaller => (hpickup hcaller).1, hfree⟩
    · rw [if_neg hfree]
      refine outline_afterTest hold fun hcaller => ?_
      simp [(hpickup hcaller).2]
  | eat i k caller =>
    obtain ⟨hold, hpickup, -⟩ := h.at hen
    exact Outline.goto ⟨hold, hpickup, update_self ..⟩
  | signal i k caller => exact Outline.goto (h.at hen.1)
  | select i k caller | semV i k caller w =>
    show Outline _ i (s.code i)
    rw [show s.code i = _ from hen.1]
    exact h.at hen.1
  | signalReturns i k caller =>
    obtain ⟨hold, hpickup, heat⟩ := h.at hen.1
    refine Outline.goto (outline_afterTest hold fun hcaller => ?_)
    rw [← hpickup hcaller, heat]
    simp

theorem PhInv.step (h : PhInv s) (hl : LockInv s.dp) (hc : ∀ k, CondInv (s.cond k))
    (hst : PhStep s e s') : PhInv s' where
  outline j := by
    by_cases hj : j = e.who
    · rw [hj]
      exact h.own hc hst
    · exact h.others hl hst hj
  apart := h.apart_step hst

/-- The invariant holds in every run. -/
theorem PhReach.inv (h : PhReach s) : PhInv s := by
  refine Reach.invariant_of (J := PhReach) (fun _ hr => hr) ?_
    (fun _ _ _ hr hs hst => ?_) h
  · rintro s ⟨-, -, hstate, hcode⟩
    refine ⟨fun i => ?_, fun k hk => ?_⟩
    · rw [hcode i]
      trivial
    · rw [hstate k] at hk
      cases hk
  · exact hs.step hr.lock.inv (fun k => (hr.cond k).inv) hst

/-! ### Eating -/

/-- The states of the runs from `s` in which philosopher `i` does not call `putdown`. -/
def UntilPutdown (i : Fin 5) (s : DinningPh) : DinningPh → Prop :=
  Reach (fun t => t = s) fun t e t' => PhStep t e t' ∧ e ≠ .putdown i

/-- Who has returned from `pickup` goes nowhere but to `putdown`. -/
theorem PhStep.code_eating (hst : PhStep s e s') (hi : s.code i = .eating)
    (he : e ≠ .putdown i) : s'.code i = .eating := by
  by_cases hj : i = e.who
  · subst hj
    obtain ⟨hen, -⟩ := hst
    cases e with
    | lock i e' =>
      have ha := hen.2.2
      rw [show s.code i = _ from hi] at ha
      cases ha
    | putdown i => exact absurd rfl he
    | pickup i | ifHungry i | test i k caller | eat i k caller =>
      exact absurd (Eq.trans (Eq.symm hen) hi) (by simp)
    | _ => exact absurd (hen.1.symm.trans hi) (by simp)
  · rw [hst.code_of_ne hj, hi]

/-- Until `putdown`, who has returned from `pickup` has not moved. -/
theorem UntilPutdown.eating {t : DinningPh} (h : UntilPutdown i s t) (hr : PhReach s)
    (hi : s.code i = .eating) : PhReach t ∧ t.code i = .eating := by
  refine Reach.invariant (I := fun t => PhReach t ∧ t.code i = .eating) ?_ ?_ h
  · rintro t rfl
    exact ⟨hr, hi⟩
  · rintro t e t' ⟨ht, hcode⟩ ⟨hst, he⟩
    exact ⟨ht.step e hst, hst.code_eating hcode he⟩

end outline

/-- **The dining philosophers.**  In any interleaving no two neighbours eat at once; `pickup`
returns only to a philosopher who eats, and who goes on eating until it calls `putdown`. -/
theorem dinning_philosophers {s : DinningPh} (h : PhReach s) :
    (∀ k, ¬ (s.state k = .Eating ∧ s.state (k + 1) = .Eating)) ∧
      ∀ i s', PhStep s (.pickupReturns i) s' →
        s'.state i = .Eating ∧ ∀ t, UntilPutdown i s' t → t.state i = .Eating := by
  refine ⟨fun k hk => h.inv.apart k hk.1 hk.2, fun i s' hst => ?_⟩
  have hr : PhReach s' := h.step _ hst
  have hi : s'.code i = .eating := by
    rw [hst.2]
    exact DinningPh.goto_code_self
  refine ⟨hr.inv.at hi, fun t ht => ?_⟩
  obtain ⟨hrt, hit⟩ := ht.eating hr hi
  exact hrt.inv.at hit

/-- The monitor as its constructor leaves it. -/
def newDinningPh : DinningPh where
  dp := ⟨none, ⟨1, []⟩, fun _ => .outside⟩
  self _ := newCondition
  state _ := .Thinking
  code _ := .thinking

theorem newDinningPh_init : PhInit newDinningPh :=
  ⟨rfl, fun _ => newCondition_init, fun _ => rfl, fun _ => rfl⟩

/-- Philosopher `i` gets the lock without waiting. -/
def phAcquires (i : Fin 5) : List PhEvent :=
  [.lock i (.acquire i), .lock i (.semP i), .lock i (.setHolder i)]

/-- Philosopher `i` releases the lock. -/
def phReleases (i : Fin 5) : List PhEvent :=
  [.lock i (.release i), .lock i (.clearHolder i), .lock i (.semV i)]

/-- Philosopher 0 eats; its neighbour 1 is hungry, waits, is made to eat by `putdown(0)`, and is
about to return from `pickup`. -/
def wokenByNeighbour : List PhEvent :=
  List.flatten [
    [.pickup 0], phAcquires 0,
    [.hungry 0, .test 0 0 .pickup, .eat 0 0 .pickup, .signal 0 0 .pickup, .select 0 0 .pickup,
      .signalReturns 0 0 .pickup, .ifHungry 0],
    phReleases 0, [.pickupReturns 0],
    [.pickup 1], phAcquires 1, [.hungry 1, .test 1 1 .pickup, .ifHungry 1, .wait 1], phReleases 1,
    [.semP 1 0],
    [.putdown 0], phAcquires 0,
    [.thinking 0, .test 0 4 .left, .test 0 1 .right, .eat 0 1 .right, .signal 0 1 .right,
      .select 0 1 .right, .semV 0 1 .right 0, .signalReturns 0 1 .right],
    phReleases 0, [.putdownReturns 0],
    [.semP 1 0], phAcquires 1, [.waitReturns 1 0], phReleases 1]

theorem dinning_philosophers_woken :
    ∃ s s', PhReach s ∧ PhStep s (.pickupReturns 1) s' ∧ s'.state 1 = .Eating ∧
      s'.state 0 ≠ .Eating ∧ ∀ t, UntilPutdown 1 s' t → t.state 1 = .Eating := by
  obtain ⟨s, hr, hen⟩ : ∃ s, PhReach s ∧ (PhEvent.pickupReturns 1).enabled s :=
    Reach.exists_run (exec_step PhEvent.enabled PhEvent.next)
      (.init newDinningPh_init) wokenByNeighbour (by decide +kernel)
  obtain ⟨hapart, hreturns⟩ := dinning_philosophers hr
  have hst : PhStep s (.pickupReturns 1) _ := ⟨hen, rfl⟩
  obtain ⟨heat, huntil⟩ := hreturns 1 _ hst
  exact ⟨s, _, hr, hst, heat, fun h0 => hapart 0 ⟨h0, heat⟩, huntil⟩

/-! ### The assertions -/

section asserts

variable {s s' t : DinningPh} {e : PhEvent} {i : Fin 5}

/-- The places from which `Release` is called, at their start. -/
def PhCode.Releases : PhCode → Prop
  | .releasePickup => True
  | .releasePutdown => True
  | .inWait => True
  | _ => False

/-- The states of the runs from `s` in which philosopher `i` takes no step. -/
def OthersRun (i : Fin 5) (s : DinningPh) : DinningPh → Prop :=
  Reach (fun t => t = s) fun t e t' => PhStep t e t' ∧ i ≠ e.who

/-- `test` leads to a `Release` with the lock held. -/
theorem PhCode.releases_afterTest {caller : PhCaller} :
    (PhCode.afterTest i caller).Releases → PhCode.afterTest i caller = .releasePutdown := by
  cases caller with
  | pickup => exact False.elim
  | left => exact False.elim
  | right => exact fun _ => rfl

/-- Who comes to a `Release` has the lock; inside `Wait` it is on the queue. -/
theorem PhStep.releases (hst : PhStep s e s') (h : PhInv s) (hnew : s'.code i ≠ s.code i)
    (hi : (s'.code i).Releases) :
    s'.dp.code i = .holds ∧ (s'.code i = .inWait → ∃ w, (s'.cond i).code i = .waiting w) := by
  have hwho : i = e.who := by
    by_contra hne
    exact hnew (hst.code_of_ne hne)
  subst hwho
  obtain ⟨hen, rfl⟩ := hst
  cases e with
  | lock i e' | semP i w | select i k caller | semV i k caller w => exact absurd rfl hnew
  | ifHungry i =>
    refine ⟨(h.at hen).1, fun hw => ?_⟩
    simp only [PhEvent.who, PhEvent.next, DinningPh.goto_code_self] at hw
    split_ifs at hw
  | wait i =>
    refine ⟨hen.2.2, fun _ => ⟨(s.cond i).numSems, ?_⟩⟩
    show ((s.onCond i (.wait i)).cond i).code i = _
    rw [DinningPh.cond_onCond_self (e := .wait i) (by simp)]
    simp [CondEvent.next, CondState.enqueue]
  | waitReturns i w =>
    refine ⟨hen.2.2, fun hw => ?_⟩
    simp [PhEvent.who, PhEvent.next, DinningPh.goto_code_self] at hw
  | test i k caller =>
    refine ⟨(h.at hen).1, fun hw => ?_⟩
    simp only [PhEvent.who, PhEvent.next, DinningPh.goto_code_self] at hi hw
    split_ifs at hi hw
    rw [PhCode.releases_afterTest hi] at hw
    cases hw
  | signalReturns i k caller =>
    refine ⟨(h.at hen.1).1, fun hw => ?_⟩
    simp only [PhEvent.who, PhEvent.next, DinningPh.goto_code_self] at hi hw
    rw [PhCode.releases_afterTest hi] at hw
    cases hw
  | _ =>
    simp only [PhEvent.who, PhEvent.next, DinningPh.goto_code_self] at hi
    exact hi.elim

/-- The others move neither the philosopher nor its place in the lock and in the conditions. -/
theorem OthersRun.same (h : OthersRun i s t) (hr : PhReach s) :
    PhReach t ∧ t.code i = s.code i ∧ t.dp.code i = s.dp.code i ∧
      (t.cond i).code i = (s.cond i).code i := by
  refine Reach.invariant (I := fun t => PhReach t ∧ t.code i = s.code i ∧
    t.dp.code i = s.dp.code i ∧ (t.cond i).code i = (s.cond i).code i) ?_ ?_ h
  · rintro t rfl
    exact ⟨hr, rfl, rfl, rfl⟩
  · rintro t e t' ⟨ht, hcode, hdp, hcond⟩ ⟨hst, hne⟩
    exact ⟨ht.step e hst, (hst.code_of_ne hne).trans hcode, (hst.dp_code_of_ne hne).trans hdp,
      (hst.cond_code_of_ne hne i).trans hcond⟩

/-- **No assertion of the monitor fails.**  Where `Wait` and `Signal` are called the lock is held,
so that they can be executed.  From the step that takes a philosopher to a `Release`, of `pickup`,
of `putdown` or inside `Wait`, the `ASSERT` of `Release` can be passed, however long the others run
first. -/
theorem PhReach.asserts (h : PhReach s) :
    (s.code i = .callWait → (PhEvent.wait i).enabled s) ∧
    (∀ k caller, s.code i = .callSignal k caller → (PhEvent.signal i k caller).enabled s) ∧
    ∀ e s' t, PhStep s e s' → s'.code i ≠ s.code i → (s'.code i).Releases → OthersRun i s' t →
      (PhEvent.lock i (.release i)).enabled t := by
  refine ⟨fun hi => ⟨hi, h.placed i i ?_, h.inv.at hi⟩,
    fun k caller hi => ⟨hi, h.placed i k ?_, (h.inv.at hi).1⟩, ?_⟩
  · simp [hi, PhCode.place]
  · simp [hi, PhCode.place]
  · intro e s' t hst hnew hi hothers
    obtain ⟨hr, hcode, hdp, hcond⟩ := hothers.same (h.step e hst)
    obtain ⟨hholds, hwait⟩ := hst.releases h.inv hnew hi
    have hheld : t.dp.code i = .holds := hdp.trans hholds
    refine ⟨rfl, ⟨Or.inr hheld, (hr.lock.inv.holder i).2 (Or.inl hheld)⟩, ?_⟩
    rw [hcode, hcond]
    cases hp : s'.code i with
    | releasePickup => rfl
    | releasePutdown => rfl
    | inWait =>
      obtain ⟨w, hw⟩ := hwait hp
      rw [hw]
      rfl
    | _ =>
      rw [hp] at hi
      exact hi.elim

/-- Philosopher 1 calls `Wait`, and while it is about to release the lock philosopher 2 comes. -/
theorem asserts_waits : ∃ s s' t, PhReach s ∧ (PhEvent.wait 1).enabled s ∧
    PhStep s (.wait 1) s' ∧ PhStep s' (.pickup 2) t ∧
    (PhEvent.lock 1 (.release 1)).enabled t := by
  obtain ⟨s, hr, hcode, hthinks⟩ :
      ∃ s, PhReach s ∧ s.code 1 = .callWait ∧ s.code 2 = .thinking :=
    Reach.exists_run (exec_step PhEvent.enabled PhEvent.next)
      (.init newDinningPh_init) (wokenByNeighbour.take 22) (by decide +kernel)
  obtain ⟨hwait, -, hrelease⟩ := hr.asserts (i := 1)
  have hst : PhStep s (.wait 1) _ := ⟨hwait hcode, rfl⟩
  have hcode' : ((PhEvent.wait 1).next s).code 1 = .inWait := DinningPh.goto_code_self
  have hst' : PhStep _ (.pickup 2) _ := ⟨(hst.code_of_ne (j := 2) (by decide)).trans hthinks, rfl⟩
  refine ⟨s, _, _, hr, hwait hcode, hst, hst', hrelease _ _ _ hst ?_ ?_ ?_⟩
  · rw [hcode', hcode]
    simp
  · rw [hcode']
    trivial
  · exact .step (.pickup 2) (.init rfl) ⟨hst', by decide⟩

end asserts

end Nachos
