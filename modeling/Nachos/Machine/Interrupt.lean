import Nachos.Lib.SortedList
import Nachos.Lib.Transition
import Nachos.Machine.Basic

/-!
# Interrupts and simulated time

`class Interrupt` of `machine/interrupt.cc`, with the clock of `stats.h`.

* A step is a call of `Schedule`, a change of the level or of the status, the start of `OneTick` or
  `Idle`, one `CheckIfDue` up to the call of a handler, or the return of a handler.
* Handlers are any code that calls `Schedule` and `YieldOnReturn`, as often as it likes.  In
  `Yield`, at the end of `OneTick`, other threads run, and they go on from there.
* Times are natural numbers: the clock starts at 0, and it does not overflow.
* `scheduled` and `fired` are the history: all calls of `Schedule`, and the handlers that were
  called, with the time.
-/

namespace Nachos

open Transition SortedList

/-- `enum IntType`. -/
inductive IntType
  | TimerInt
  | DiskInt
  | ConsoleWriteInt
  | ConsoleReadInt
  | NetworkSendInt
  | NetworkRecvInt
  deriving DecidableEq, Repr

/-- `class PendingInterrupt`; its number is that of the call of `Schedule`. -/
structure PendingInterrupt where
  id : ℕ
  when : ℕ
  type : IntType
  deriving DecidableEq, Repr

/-- The clock in `class Statistics`. -/
structure Statistics where
  totalTicks : ℕ
  idleTicks : ℕ
  systemTicks : ℕ
  userTicks : ℕ
  deriving DecidableEq, Repr

def UserTick : ℕ := 1

def SystemTick : ℕ := 10

/-- Which call of `CheckIfDue` is made: in the loop of `OneTick`, in the test of `Idle`, or in its
loop. -/
inductive Caller
  | oneTick
  | idleTest
  | idleLoop
  deriving DecidableEq, Repr

/-- What is going on. -/
inductive Control
  -- code of a thread
  | running
  -- `CheckIfDue` is called
  | checking (caller : Caller)
  -- in a handler; `old` is the status to restore
  | handling (caller : Caller) (old : MachineStatus)
  | halted
  deriving DecidableEq, Repr

/-- The call of `CheckIfDue` that follows one that has returned true. -/
def Caller.again : Caller → Caller
  | .oneTick => .oneTick
  | .idleTest | .idleLoop => .idleLoop

/-- Code runs that can call `Schedule`. -/
def Control.calls : Control → Bool
  | .running | .handling _ _ => true
  | _ => false

/-- `class Interrupt`. -/
structure Interrupt where
  level : IntStatus
  pending : List (Node PendingInterrupt ℕ)
  inHandler : Bool
  yieldOnReturn : Bool
  status : MachineStatus
  stats : Statistics
  control : Control
  scheduled : List PendingInterrupt
  fired : List (PendingInterrupt × ℕ)
  deriving DecidableEq, Repr

/-- What can happen. -/
inductive IntEvent
  | schedule (fromNow : ℕ) (type : IntType)
  | setLevel (now : IntStatus)
  | setStatus (status : MachineStatus)
  | yieldOnReturn
  -- `OneTick` after an instruction
  | instruction
  | idle
  | checkIfDue
  | handlerReturns
  deriving DecidableEq, Repr

namespace Interrupt

/-- `Interrupt::Schedule`. -/
def schedule (fromNow : ℕ) (type : IntType) (s : Interrupt) : Interrupt :=
  let toOccur : PendingInterrupt := ⟨s.scheduled.length, s.stats.totalTicks + fromNow, type⟩
  { s with
    pending := sortedInsert toOccur toOccur.when s.pending
    scheduled := s.scheduled ++ [toOccur] }

/-- `OneTick`: the advance of the clock. -/
def tick (status : MachineStatus) (stats : Statistics) : Statistics :=
  if status = .SystemMode then
    { stats with
      totalTicks := stats.totalTicks + SystemTick
      systemTicks := stats.systemTicks + SystemTick }
  else
    { stats with
      totalTicks := stats.totalTicks + UserTick
      userTicks := stats.userTicks + UserTick }

/-- `Interrupt::OneTick`, up to its loop. -/
def oneTick (s : Interrupt) : Interrupt :=
  { s with stats := tick s.status s.stats, level := .IntOff, control := .checking .oneTick }

/-- `CheckIfDue`: nothing is left to do, or the handler is called. -/
def fireOrQuit (toOccur : PendingInterrupt) (when : ℕ) (s : Interrupt) :
    Interrupt × Option PendingInterrupt :=
  if s.status = .IdleMode ∧ toOccur.type = .TimerInt ∧ s.pending = [] then
    ({ s with pending := sortedInsert toOccur when s.pending }, none)
  else
    ({ s with
      inHandler := true
      status := .SystemMode
      fired := s.fired ++ [(toOccur, s.stats.totalTicks)] }, some toOccur)

/-- `Interrupt::CheckIfDue`, up to the call of the handler, if there is one. -/
def checkIfDue (advanceClock : Bool) (s : Interrupt) : Interrupt × Option PendingInterrupt :=
  match sortedRemove s.pending with
  | none => (s, none)
  | some (⟨toOccur, when⟩, rest) =>
    let s := { s with pending := rest }
    if advanceClock ∧ s.stats.totalTicks < when then
      fireOrQuit toOccur when { s with
        stats := { s.stats with
          idleTicks := s.stats.idleTicks + (when - s.stats.totalTicks)
          totalTicks := when } }
    else if s.stats.totalTicks < when then
      -- not time yet, put it back
      ({ s with pending := sortedInsert toOccur when s.pending }, none)
    else fireOrQuit toOccur when s

/-- `CheckIfDue` has returned false. -/
def leave (caller : Caller) (s : Interrupt) : Interrupt :=
  match caller with
  | .oneTick =>
    let s := { s with level := .IntOn, control := .running }
    if s.yieldOnReturn then { s with yieldOnReturn := false, status := .SystemMode } else s
  | .idleTest => { s with control := .halted }
  | .idleLoop => { s with yieldOnReturn := false, status := .SystemMode, control := .running }

/-- What happens in an event, if it can happen; an `ASSERT` that fails is the end. -/
def step (s : Interrupt) : IntEvent → Option Interrupt
  | .schedule fromNow type =>
    if s.control.calls ∧ 0 < fromNow then some (s.schedule fromNow type) else none
  | .setLevel now =>
    if s.control.calls ∧ (now = .IntOff ∨ s.inHandler = false) then
      if now = .IntOn ∧ s.level = .IntOff then some { s with level := now }.oneTick
      else some { s with level := now }
    else none
  | .setStatus status => if s.control = .running then some { s with status := status } else none
  | .yieldOnReturn =>
    if s.control.calls then some { s with yieldOnReturn := true } else none
  | .instruction => if s.control = .running then some s.oneTick else none
  | .idle =>
    if s.control = .running then
      some { s with status := .IdleMode, control := .checking .idleTest }
    else none
  | .checkIfDue =>
    match s.control with
    | .checking caller =>
      if s.level = .IntOff then
        match s.checkIfDue (caller = .idleTest) with
        | (s', none) => some (s'.leave caller)
        | (s', some _) => some { s' with control := .handling caller.again s.status }
      else none
    | _ => none
  | .handlerReturns =>
    match s.control with
    | .handling caller old =>
      some { s with status := old, inHandler := false, control := .checking caller }
    | _ => none

/-- `Interrupt::Interrupt`, `Statistics::Statistics`. -/
def initial : Interrupt where
  level := .IntOff
  pending := []
  inHandler := false
  yieldOnReturn := false
  status := .SystemMode
  stats := ⟨0, 0, 0, 0⟩
  control := .running
  scheduled := []
  fired := []

end Interrupt

/-- One step. -/
def IntStep (s : Interrupt) (e : IntEvent) (s' : Interrupt) : Prop := s.step e = some s'

/-! ### What a step does -/

/-- The list, the clock and the history. -/
structure IntLog where
  pending : List (Node PendingInterrupt ℕ)
  stats : Statistics
  scheduled : List PendingInterrupt
  fired : List (PendingInterrupt × ℕ)

variable {p : PendingInterrupt} {rest : List (Node PendingInterrupt ℕ)} {e : IntEvent}

namespace Interrupt

def log (s : Interrupt) : IntLog := ⟨s.pending, s.stats, s.scheduled, s.fired⟩

/-- The clock in `CheckIfDue` for an interrupt that is due at `when`. -/
def advance (advanceClock : Bool) (when : ℕ) (stats : Statistics) : Statistics :=
  if advanceClock ∧ stats.totalTicks < when then
    { stats with
      idleTicks := stats.idleTicks + (when - stats.totalTicks)
      totalTicks := when }
  else stats

/-- The exits of `CheckIfDue`. -/
inductive Checks (advanceClock : Bool) (l : IntLog) : IntLog → Prop
  | empty : l.pending = [] → Checks advanceClock l l
  | putBack (p : PendingInterrupt) (when : ℕ) (rest : List (Node PendingInterrupt ℕ)) :
      l.pending = ⟨p, when⟩ :: rest → advanceClock = false → l.stats.totalTicks < when →
      Checks advanceClock l { l with pending := sortedInsert p when rest }
  | quits (p : PendingInterrupt) (when : ℕ) : l.pending = [⟨p, when⟩] →
      Checks advanceClock l { l with stats := advance advanceClock when l.stats }
  | fires (p : PendingInterrupt) (when : ℕ) (rest : List (Node PendingInterrupt ℕ)) :
      l.pending = ⟨p, when⟩ :: rest → when ≤ (advance advanceClock when l.stats).totalTicks →
      Checks advanceClock l { l with
        pending := rest
        stats := advance advanceClock when l.stats
        fired := l.fired ++ [(p, (advance advanceClock when l.stats).totalTicks)] }

/-- The kinds of steps. -/
inductive Steps (s : Interrupt) : IntLog → Prop
  | quiet : Steps s s.log
  | schedules (fromNow : ℕ) (type : IntType) : 0 < fromNow → Steps s (s.schedule fromNow type).log
  | ticks : Steps s { s.log with stats := tick s.status s.stats }
  | checks (caller : Caller) {l : IntLog} : s.control = .checking caller →
      Checks (caller = .idleTest) s.log l → Steps s l

variable {s s' : Interrupt}

theorem fireOrQuit_checks {advanceClock : Bool} {when : ℕ} {l : IntLog}
    (hp : l.pending = ⟨p, when⟩ :: rest)
    (hs : s.log = { l with pending := rest, stats := advance advanceClock when l.stats })
    (hw : when ≤ (advance advanceClock when l.stats).totalTicks) :
    Checks advanceClock l (fireOrQuit p when s).1.log := by
  have hpend : s.pending = rest := congrArg IntLog.pending hs
  have hstats : s.stats = advance advanceClock when l.stats := congrArg IntLog.stats hs
  have hsched : s.scheduled = l.scheduled := congrArg IntLog.scheduled hs
  have hfired : s.fired = l.fired := congrArg IntLog.fired hs
  unfold fireOrQuit
  split_ifs with hq
  · obtain rfl : rest = [] := hpend.symm.trans hq.2.2
    have hlog : ({ s with pending := sortedInsert p when s.pending } : Interrupt).log =
        { l with stats := advance advanceClock when l.stats } := by
      show IntLog.mk (sortedInsert p when s.pending) s.stats s.scheduled s.fired = _
      rw [hpend, hstats, hsched, hfired, hp]
      rfl
    rw [hlog]
    exact .quits p when hp
  · have hfires := Checks.fires p when rest hp hw
    rw [← hpend, ← hstats, ← hsched, ← hfired] at hfires
    exact hfires

theorem checkIfDue_checks (advanceClock : Bool) (s : Interrupt) :
    Checks advanceClock s.log (s.checkIfDue advanceClock).1.log := by
  unfold checkIfDue
  cases hp : s.pending with
  | nil => exact .empty hp
  | cons node rest =>
    obtain ⟨p, when⟩ := node
    have hp' : s.log.pending = ⟨p, when⟩ :: rest := hp
    simp only [sortedRemove]
    split_ifs with hadv hnot
    · have hst : advance advanceClock when s.log.stats = _ := if_pos hadv
      refine fireOrQuit_checks hp' ?_ ?_
      · rw [hst]
        rfl
      · rw [hst]
    · refine .putBack p when rest hp' ?_ hnot
      cases advanceClock with
      | false => rfl
      | true => exact absurd ⟨rfl, hnot⟩ hadv
    · have hst : advance advanceClock when s.log.stats = s.stats := if_neg hadv
      refine fireOrQuit_checks hp' ?_ ?_
      · rw [hst]
        rfl
      · rw [hst]
        exact not_lt.1 hnot

theorem leave_log (caller : Caller) (s : Interrupt) : (s.leave caller).log = s.log := by
  cases caller with
  | oneTick =>
    unfold leave
    dsimp only
    split_ifs <;> rfl
  | idleTest => rfl
  | idleLoop => rfl

/-- What a step does. -/
theorem step_cases (h : IntStep s e s') : Steps s s'.log := by
  unfold IntStep at h
  cases e with
  | schedule fromNow type =>
    simp only [step] at h
    split_ifs at h with hc
    cases h
    exact .schedules fromNow type hc.2
  | setLevel now =>
    simp only [step] at h
    split_ifs at h
    · cases h
      exact .ticks
    · cases h
      exact .quiet
  | setStatus status | yieldOnReturn | idle =>
    simp only [step] at h
    split_ifs at h
    cases h
    exact .quiet
  | instruction =>
    simp only [step] at h
    split_ifs at h
    cases h
    exact .ticks
  | checkIfDue =>
    simp only [step] at h
    split at h
    next caller hc =>
      split_ifs at h
      have hcheck := checkIfDue_checks (caller = .idleTest) s
      split at h
      next s₁ hs₁ =>
        cases h
        rw [hs₁] at hcheck
        rw [leave_log]
        exact .checks caller hc hcheck
      next s₁ p hs₁ =>
        cases h
        rw [hs₁] at hcheck
        exact .checks caller hc hcheck
    next => cases h
  | handlerReturns =>
    simp only [step] at h
    split at h
    next => cases h; exact .quiet
    next => cases h

end Interrupt

/-! ### The invariant -/

/-- What holds of the list, the clock and the history at all times. -/
structure IntInv (l : IntLog) : Prop where
  sorted : Sorted l.pending
  keys : ∀ node ∈ l.pending, node.key = node.item.when
  once : (l.fired.map Prod.fst ++ l.pending.map Node.item).Perm l.scheduled
  ids : l.scheduled.map PendingInterrupt.id = List.range l.scheduled.length
  due : ∀ f ∈ l.fired, f.1.when ≤ f.2
  past : ∀ f ∈ l.fired, f.1.when ≤ l.stats.totalTicks
  ahead : ∀ f ∈ l.fired, ∀ node ∈ l.pending, f.1.when ≤ node.key
  order : (l.fired.map fun f => f.1.when).Pairwise (· ≤ ·)
  ticks : l.stats.totalTicks = l.stats.idleTicks + l.stats.systemTicks + l.stats.userTicks

/-- The clock goes on, and its parts add up. -/
structure GoesOn (st st' : Statistics) : Prop where
  totalTicks : st.totalTicks ≤ st'.totalTicks
  ticks : st.totalTicks = st.idleTicks + st.systemTicks + st.userTicks →
    st'.totalTicks = st'.idleTicks + st'.systemTicks + st'.userTicks

theorem GoesOn.refl (st : Statistics) : GoesOn st st := ⟨le_rfl, id⟩

theorem GoesOn.tick (status : MachineStatus) (st : Statistics) :
    GoesOn st (Interrupt.tick status st) := by
  unfold Interrupt.tick
  split_ifs
  · exact ⟨by simp, fun h => by simp only [h]; omega⟩
  · exact ⟨by simp, fun h => by simp only [h]; omega⟩

theorem GoesOn.advance (advanceClock : Bool) (when : ℕ) (st : Statistics) :
    GoesOn st (Interrupt.advance advanceClock when st) := by
  unfold Interrupt.advance
  split_ifs with h
  · exact ⟨h.2.le, fun hsum => by dsimp only; omega⟩
  · exact .refl st

namespace IntInv

variable {l l' : IntLog}

/-- Only the clock changes. -/
theorem clock {st : Statistics} (hI : IntInv l) (hst : GoesOn l.stats st) :
    IntInv { l with stats := st } :=
  { hI with
    past := fun f hf => (hI.past f hf).trans hst.totalTicks
    ticks := hst.ticks hI.ticks }

/-- An interrupt that was taken from the list is put back. -/
theorem putBack {when : ℕ} (hI : IntInv l) (hp : l.pending = ⟨p, when⟩ :: rest) :
    IntInv { l with pending := sortedInsert p when rest } := by
  have hrest : Sorted rest := by
    have h := hI.sorted
    rw [hp] at h
    exact (List.pairwise_cons.1 h).2
  have hperm : (sortedInsert p when rest).Perm l.pending := by
    rw [hp]
    exact sortedInsert_perm p when rest
  exact { hI with
    sorted := hrest.sortedInsert p when
    keys := fun node hn => hI.keys node (hperm.mem_iff.1 hn)
    once := ((hperm.map Node.item).append_left _).trans hI.once
    ahead := fun f hf node hn => hI.ahead f hf node (hperm.mem_iff.1 hn) }

/-- The handler of the first interrupt is called. -/
theorem fire {when : ℕ} {st : Statistics} (hI : IntInv l) (hp : l.pending = ⟨p, when⟩ :: rest)
    (hst : GoesOn l.stats st) (hw : when ≤ st.totalTicks) :
    IntInv { l with
      pending := rest
      stats := st
      fired := l.fired ++ [(p, st.totalTicks)] } := by
  have hmem : (⟨p, when⟩ : Node PendingInterrupt ℕ) ∈ l.pending := by simp [hp]
  have hpw : when = p.when := hI.keys _ hmem
  have hsorted := hI.sorted
  rw [hp] at hsorted
  obtain ⟨hle, hrest⟩ := List.pairwise_cons.1 hsorted
  have hsub : ∀ node ∈ rest, node ∈ l.pending := fun node hn => by simp [hp, hn]
  refine ⟨hrest, fun node hn => hI.keys node (hsub node hn), ?_, hI.ids, fun f hf => ?_,
    fun f hf => ?_, fun f hf node hn => ?_, ?_, hst.ticks hI.ticks⟩
  · have honce := hI.once
    rw [hp] at honce
    simpa using honce
  · rcases List.mem_append.1 hf with hf | hf
    · exact hI.due f hf
    · obtain rfl := List.mem_singleton.1 hf
      exact hpw ▸ hw
  · rcases List.mem_append.1 hf with hf | hf
    · exact (hI.past f hf).trans hst.totalTicks
    · obtain rfl := List.mem_singleton.1 hf
      exact hpw ▸ hw
  · rcases List.mem_append.1 hf with hf | hf
    · exact hI.ahead f hf node (hsub node hn)
    · obtain rfl := List.mem_singleton.1 hf
      exact hpw ▸ hle node hn
  · rw [List.map_append]
    refine List.pairwise_append.2 ⟨hI.order, List.pairwise_singleton .., ?_⟩
    intro a ha b hb
    obtain ⟨f, hf, rfl⟩ := List.mem_map.1 ha
    obtain rfl : b = p.when := by simpa using hb
    exact hpw ▸ hI.ahead f hf _ hmem

theorem schedule {s : Interrupt} (hI : IntInv s.log) (fromNow : ℕ) (type : IntType) :
    IntInv (s.schedule fromNow type).log := by
  have hperm := sortedInsert_perm
    (⟨s.scheduled.length, s.stats.totalTicks + fromNow, type⟩ : PendingInterrupt)
    (s.stats.totalTicks + fromNow) s.pending
  refine ⟨hI.sorted.sortedInsert _ _, fun node hn => ?_, ?_, ?_, hI.due, hI.past,
    fun f hf node hn => ?_, hI.order, hI.ticks⟩
  · rcases List.mem_cons.1 (hperm.mem_iff.1 hn) with rfl | hn
    · rfl
    · exact hI.keys node hn
  · refine ((hperm.map Node.item).append_left _).trans ?_
    refine List.perm_middle.trans ?_
    exact (hI.once.cons _).trans (List.perm_append_singleton _ _).symm
  · show (s.scheduled ++ [_]).map PendingInterrupt.id = List.range (s.scheduled ++ [_]).length
    rw [List.map_append, List.length_append, List.length_singleton, List.range_succ]
    exact congrArg (· ++ [s.scheduled.length]) hI.ids
  · rcases List.mem_cons.1 (hperm.mem_iff.1 hn) with rfl | hn
    · exact (hI.past f hf).trans (Nat.le_add_right _ _)
    · exact hI.ahead f hf node hn

theorem checks {advanceClock : Bool} (hI : IntInv l) (h : Interrupt.Checks advanceClock l l') :
    IntInv l' := by
  cases h with
  | empty => exact hI
  | putBack p when rest hp => exact hI.putBack hp
  | quits p when => exact hI.clock (.advance ..)
  | fires p when rest hp hw => exact hI.fire hp (.advance ..) hw

theorem step {s s' : Interrupt} (hI : IntInv s.log) (h : IntStep s e s') : IntInv s'.log := by
  have hs := Interrupt.step_cases h
  revert hs
  generalize s'.log = l'
  intro hs
  cases hs with
  | quiet => exact hI
  | schedules fromNow type => exact hI.schedule fromNow type
  | ticks => exact hI.clock (.tick ..)
  | checks caller _ hc => exact hI.checks hc

theorem initial : IntInv Interrupt.initial.log :=
  ⟨List.Pairwise.nil, nofun, .refl _, rfl, nofun, nofun, nofun, List.Pairwise.nil, rfl⟩

end IntInv

/-- The states of the simulation. -/
abbrev IntReach : Interrupt → Prop := Reach (· = Interrupt.initial) IntStep

theorem intInv_of_reach {s : Interrupt} (h : IntReach s) : IntInv s.log :=
  h.invariant (I := fun s => IntInv s.log) (fun _ h => h ▸ .initial) fun _ _ _ => .step

/-- What a step adds to the history, and what it does to the clock. -/
theorem step_fires {s s' : Interrupt} (hI : IntInv s.log) (h : IntStep s e s') :
    s.stats.totalTicks ≤ s'.stats.totalTicks ∧
      (s'.fired = s.fired ∨ ∃ p ∈ s.pending.map Node.item, p.when ≤ s'.stats.totalTicks ∧
        s'.fired = s.fired ++ [(p, s'.stats.totalTicks)]) := by
  have hs := Interrupt.step_cases h
  have hstats : s'.stats = s'.log.stats := rfl
  have hfired : s'.fired = s'.log.fired := rfl
  rw [hstats, hfired]
  revert hs
  generalize s'.log = l'
  intro hs
  cases hs with
  | quiet => exact ⟨le_rfl, Or.inl rfl⟩
  | schedules fromNow type => exact ⟨le_rfl, Or.inl rfl⟩
  | ticks => exact ⟨(GoesOn.tick ..).totalTicks, Or.inl rfl⟩
  | checks caller _ hc =>
    cases hc with
    | empty => exact ⟨le_rfl, Or.inl rfl⟩
    | putBack p when rest => exact ⟨le_rfl, Or.inl rfl⟩
    | quits p when => exact ⟨(GoesOn.advance ..).totalTicks, Or.inl rfl⟩
    | fires p when rest hp hw =>
      have hmem : (⟨p, when⟩ : Node PendingInterrupt ℕ) ∈ s.log.pending := by simp [hp]
      have hpw : when = p.when := hI.keys _ hmem
      exact ⟨(GoesOn.advance ..).totalTicks,
        Or.inr ⟨p, List.mem_map_of_mem hmem, hpw ▸ hw, rfl⟩⟩

/-- **Interrupts fire once, in the order of their times, and never early**; the clock never goes
back, and it is the sum of its parts. -/
theorem interrupts_fire_once {s : Interrupt} (h : IntReach s) :
    Sorted s.pending ∧ (∀ node ∈ s.pending, node.key = node.item.when) ∧
    (∀ p ∈ s.scheduled, (s.fired.map Prod.fst).count p + (s.pending.map Node.item).count p = 1) ∧
    (∀ p, p ∈ s.fired.map Prod.fst ∨ p ∈ s.pending.map Node.item → p ∈ s.scheduled) ∧
    (∀ f ∈ s.fired, f.1.when ≤ f.2) ∧ (s.fired.map fun f => f.1.when).Pairwise (· ≤ ·) ∧
    s.stats.totalTicks = s.stats.idleTicks + s.stats.systemTicks + s.stats.userTicks ∧
    ∀ e s', IntStep s e s' → s.stats.totalTicks ≤ s'.stats.totalTicks ∧
      (s'.fired = s.fired ∨ ∃ p ∈ s.pending.map Node.item, p.when ≤ s'.stats.totalTicks ∧
        s'.fired = s.fired ++ [(p, s'.stats.totalTicks)]) := by
  have hI := intInv_of_reach h
  have hnodup : s.scheduled.Nodup := by
    refine List.Nodup.of_map PendingInterrupt.id ?_
    have hids : s.scheduled.map PendingInterrupt.id = _ := hI.ids
    rw [hids]
    exact List.nodup_range
  refine ⟨hI.sorted, hI.keys, fun p hp => ?_, fun p hp => ?_, hI.due, hI.order, hI.ticks,
    fun e s' hst => step_fires hI hst⟩
  · rw [← List.count_append]
    exact (hI.once.count_eq p).trans (List.count_eq_one_of_mem hnodup hp)
  · exact hI.once.mem_iff.1 (List.mem_append.2 hp)

/-- The disk schedules an interrupt, and its handler another one. -/
theorem interrupts_fire_once_disk : ∃ s, IntReach s ∧
    s.fired.map (fun f => (f.1.when, f.2)) = [(5, 10)] ∧ Sorted s.pending ∧
    s.stats.totalTicks = s.stats.idleTicks + s.stats.systemTicks + s.stats.userTicks := by
  obtain ⟨s, hs, hfired⟩ : ∃ s, IntReach s ∧
      s.fired.map (fun f => (f.1.when, f.2)) = [(5, 10)] :=
    Reach.exists_run (f := Interrupt.step) (fun _ _ _ h => h) (.init rfl)
      [.schedule 5 .DiskInt, .instruction, .checkIfDue, .schedule 7 .DiskInt, .handlerReturns,
        .checkIfDue] (by decide +kernel)
  have hall := interrupts_fire_once hs
  exact ⟨s, hs, hfired, hall.1, hall.2.2.2.2.2.2.1⟩

end Nachos
