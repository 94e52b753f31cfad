import Nachos.Machine.Interrupt

/-!
# Interrupts for the same time

`Schedule` puts an interrupt behind those for the same time that are in the list already.  But a
`CheckIfDue` that comes too early takes the first interrupt out of the list and puts it back in the
same way, so behind the others for its time.

* `Untied`: a check does not come too early for one of several interrupts for the same time.
* `scheduled_order_kept`: then they fire in the order in which they were scheduled.
-/

namespace Nachos

open Transition SortedList

/-- If the first interrupt is not due, and the clock is not advanced to its time, then there is no
other one for its time. -/
def Untied (s : Interrupt) : Prop :=
  ∀ first ∈ s.pending.head?, s.control ≠ .checking .idleTest → s.stats.totalTicks < first.key →
    ∀ node ∈ s.pending.tail, node.key ≠ first.key
  deriving Decidable

/-- A step that meets the condition. -/
def UntiedStep (s : Interrupt) (e : IntEvent) (s' : Interrupt) : Prop :=
  IntStep s e s' ∧ (e = .checkIfDue → Untied s)

/-- Of two interrupts for the same time, the first was scheduled first. -/
def ScheduledFirst (p q : PendingInterrupt) : Prop := p.when = q.when → p.id < q.id

/-- In the order in which they have fired and are going to fire. -/
def IntLog.InOrder (l : IntLog) : Prop :=
  (l.fired.map Prod.fst ++ l.pending.map Node.item).Pairwise ScheduledFirst

theorem IntInv.id_lt {l : IntLog} (hI : IntInv l) {p : PendingInterrupt}
    (hp : p ∈ l.fired.map Prod.fst ++ l.pending.map Node.item) : p.id < l.scheduled.length := by
  have hmem := List.mem_map_of_mem (f := PendingInterrupt.id) (hI.once.mem_iff.1 hp)
  rw [hI.ids] at hmem
  exact List.mem_range.1 hmem

namespace IntLog.InOrder

variable {l l' : IntLog}

/-- The list of pending interrupts is replaced. -/
theorem pending (h : l.InOrder) {pending : List (Node PendingInterrupt ℕ)}
    (hfp : ∀ p ∈ l.fired.map Prod.fst, ∀ node ∈ pending, ScheduledFirst p node.item)
    (hp : pending.Pairwise fun a b => ScheduledFirst a.item b.item) :
    IntLog.InOrder { l with pending := pending } := by
  refine List.pairwise_append.2 ⟨(List.pairwise_append.1 h).1, List.pairwise_map.2 hp, ?_⟩
  intro p hp q hq
  obtain ⟨node, hn, rfl⟩ := List.mem_map.1 hq
  exact hfp p hp node hn

theorem schedule {s : Interrupt} (hI : IntInv s.log) (h : s.log.InOrder) (fromNow : ℕ)
    (type : IntType) : (s.schedule fromNow type).log.InOrder := by
  obtain ⟨-, hpend, hfp⟩ := List.pairwise_append.1 h
  have hperm := sortedInsert_perm
    (⟨s.scheduled.length, s.stats.totalTicks + fromNow, type⟩ : PendingInterrupt)
    (s.stats.totalTicks + fromNow) s.pending
  refine h.pending (fun p hp node hn => ?_) ?_
  · rcases List.mem_cons.1 (hperm.mem_iff.1 hn) with rfl | hn
    · exact fun _ => hI.id_lt (List.mem_append_left _ hp)
    · exact hfp p hp _ (List.mem_map_of_mem hn)
  · refine pairwise_sortedInsert hI.sorted (List.pairwise_map.1 hpend) (fun node hn _ _ => ?_)
      fun node hn hlt heq => ?_
    · exact hI.id_lt (List.mem_append_right _ (List.mem_map_of_mem hn))
    · rw [hI.keys node hn] at hlt
      exact absurd heq (ne_of_lt hlt)

/-- The first interrupt is put back where there is no other one for its time. -/
theorem putBack {p : PendingInterrupt} {when : ℕ} {rest : List (Node PendingInterrupt ℕ)}
    (hI : IntInv l) (h : l.InOrder) (hp : l.pending = ⟨p, when⟩ :: rest)
    (hno : ∀ node ∈ rest, node.key ≠ when) :
    IntLog.InOrder { l with pending := sortedInsert p when rest } := by
  obtain ⟨-, hpend, hfp⟩ := List.pairwise_append.1 h
  have hsorted := hI.sorted
  rw [hp] at hsorted hpend
  obtain ⟨hle, hrest⟩ := List.pairwise_cons.1 hsorted
  obtain ⟨hfirst, hrestp⟩ := List.pairwise_cons.1 (List.pairwise_map.1 hpend)
  have hperm : (sortedInsert p when rest).Perm l.pending := by
    rw [hp]
    exact sortedInsert_perm p when rest
  refine h.pending (fun q hq node hn => ?_) ?_
  · exact hfp q hq _ (List.mem_map_of_mem (hperm.mem_iff.1 hn))
  · refine pairwise_sortedInsert hrest hrestp (fun node hn hkey => ?_)
      fun node hn _ => hfirst node hn
    exact absurd (le_antisymm hkey (hle node hn)) (hno node hn)

/-- The first interrupt fires. -/
theorem fire {p : PendingInterrupt} {when : ℕ} {rest : List (Node PendingInterrupt ℕ)}
    (h : l.InOrder) (hp : l.pending = ⟨p, when⟩ :: rest) (st : Statistics) (time : ℕ) :
    IntLog.InOrder { l with pending := rest, stats := st, fired := l.fired ++ [(p, time)] } := by
  unfold IntLog.InOrder at *
  rw [hp] at h
  simpa using h

theorem step {s s' : Interrupt} {e : IntEvent} (hI : IntInv s.log) (h : s.log.InOrder)
    (hs : UntiedStep s e s') : s'.log.InOrder := by
  obtain ⟨hst, huntied⟩ := hs
  have he : ∀ caller, s.control = .checking caller → e = .checkIfDue := by
    intro caller hc
    unfold IntStep at hst
    cases e <;> simp_all [Interrupt.step, Control.calls]
  have hcases := Interrupt.step_cases hst
  revert hcases
  generalize s'.log = l'
  intro hcases
  cases hcases with
  | quiet => exact h
  | schedules fromNow type => exact schedule hI h fromNow type
  | ticks => exact h
  | checks caller hc hcheck =>
    have hun := huntied (he caller hc)
    cases hcheck with
    | empty => exact h
    | quits p when => exact h
    | fires p when rest hp => exact h.fire hp _ _
    | putBack p when rest hp hadv hlt =>
      refine putBack hI h hp ?_
      have hp' : s.pending = ⟨p, when⟩ :: rest := hp
      have hidle : s.control ≠ .checking .idleTest := by
        rw [hc]
        rintro ⟨⟩
        cases hadv
      have hall := hun ⟨p, when⟩ (by simp [hp']) hidle hlt
      rwa [hp'] at hall

end IntLog.InOrder

theorem inOrder_of_reach {s : Interrupt} (h : Reach (· = Interrupt.initial) UntiedStep s) :
    s.log.InOrder := by
  have hmono : ∀ s, Reach (· = Interrupt.initial) UntiedStep s → IntInv s.log :=
    fun s hs => intInv_of_reach (hs.mono fun _ _ _ h => h.1)
  refine h.invariant_of (I := fun s => s.log.InOrder) hmono ?_ fun _ _ _ hI hO => hO.step hI
  rintro s rfl
  exact List.Pairwise.nil

/-- **Interrupts for the same time fire in the order in which they were scheduled**, in every run in
which no check comes too early for one of several interrupts for the same time. -/
theorem scheduled_order_kept {s : Interrupt} (h : Reach (· = Interrupt.initial) UntiedStep s)
    {p q : PendingInterrupt} (hp : p ∈ s.scheduled) (hpq : p.id < q.id) (hw : p.when = q.when)
    (hq : q ∈ s.fired.map Prod.fst) :
    ∃ i j : ℕ, i < j ∧ (s.fired.map Prod.fst)[i]? = some p ∧
      (s.fired.map Prod.fst)[j]? = some q := by
  have hI := intInv_of_reach (h.mono fun _ _ _ h => h.1)
  obtain ⟨hfired, -, hfp⟩ := List.pairwise_append.1 (inOrder_of_reach h)
  have hafter : ¬ ScheduledFirst q p := fun hqp => absurd (hqp hw.symm) (by omega)
  have hne : p ≠ q := by
    rintro rfl
    exact absurd hpq (lt_irrefl _)
  rcases List.mem_append.1 (hI.once.mem_iff.2 hp) with hpf | hpp
  · exact exists_lt_of_pairwise hfired hpf hq hne hafter
  · exact absurd (hfp q hq p hpp) hafter

/-- The two handlers are called when the clock is advanced to their time. -/
theorem scheduled_order_kept_idle : ∃ s, Reach (· = Interrupt.initial) UntiedStep s ∧
    ∃ i j : ℕ, i < j ∧ (s.fired.map Prod.fst)[i]? = some ⟨0, 20, .DiskInt⟩ ∧
      (s.fired.map Prod.fst)[j]? = some ⟨1, 20, .ConsoleReadInt⟩ := by
  let f (s : Interrupt) (e : IntEvent) : Option Interrupt :=
    if e = .checkIfDue → Untied s then s.step e else none
  have hf : ∀ s e s', f s e = some s' → UntiedStep s e s' := by
    intro s e s' h
    simp only [f] at h
    split_ifs at h with hun
    exact ⟨h, hun⟩
  obtain ⟨s, hs, hsched, hfired⟩ : ∃ s, Reach (· = Interrupt.initial) UntiedStep s ∧
      (⟨0, 20, .DiskInt⟩ : PendingInterrupt) ∈ s.scheduled ∧
      (⟨1, 20, .ConsoleReadInt⟩ : PendingInterrupt) ∈ s.fired.map Prod.fst :=
    Reach.exists_run hf (.init rfl) [.schedule 20 .DiskInt, .schedule 20 .ConsoleReadInt, .idle,
      .checkIfDue, .handlerReturns, .checkIfDue] (by decide +kernel)
  exact ⟨s, hs, scheduled_order_kept hs hsched (by decide) rfl hfired⟩

/-- Two interrupts for time 20 and a check at time 10: the second one fires first. -/
theorem interrupt_overtaken : ∃ s, IntReach s ∧
    s.scheduled = [⟨0, 20, .DiskInt⟩, ⟨1, 20, .ConsoleReadInt⟩] ∧
    s.fired = [(⟨1, 20, .ConsoleReadInt⟩, 20), (⟨0, 20, .DiskInt⟩, 20)] :=
  Reach.exists_run (f := Interrupt.step) (fun _ _ _ h => h) (.init rfl)
    [.schedule 20 .DiskInt, .schedule 20 .ConsoleReadInt, .instruction, .checkIfDue, .instruction,
      .checkIfDue, .handlerReturns, .checkIfDue] (by decide +kernel)

end Nachos
