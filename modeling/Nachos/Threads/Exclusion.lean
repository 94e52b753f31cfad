import Nachos.Lib.Update
import Nachos.Threads.Kernel

/-!
# Who is where

Two invariants of all runs of the kernel, which hold together (`step_both`).

* `Exclusion`: only the running thread or handler is inside `P` or `V`, and interrupts are disabled
  there; everybody else is switched out.  In particular the `ASSERT`s of `Sleep` and `SetLevel` on
  the interrupt level hold.
* `Queues`: a thread in the queue of a semaphore is in `P` on that semaphore and not ready, and is
  there once; the threads that `V` has woken are on the ready list or about to test again.
-/

namespace Nachos

open Kernel Function

/-! ### Exclusion -/

/-- Between the two `SetLevel`s of `P` or `V`, and awake. -/
@[simp] def Place.Inside : Place → Prop
  | .pTest _ _ _ | .pSleep _ _ | .pDone _ _ | .vRemove _ _ | .vAdd _ _ | .vDone _ _ => True
  | _ => False

/-- Switched out, and may be run again. -/
@[simp] def Place.Resumable : Place → Prop
  | .pAsleep _ _ | .blocked | .yielded _ _ => True
  | _ => False

/-- Where a handler can be: it calls `V` only, and interrupts were disabled before. -/
@[simp] def Place.OfHandler : Place → Prop
  | .outside => True
  | .vRemove _ oldLevel | .vAdd _ oldLevel | .vDone _ oldLevel => oldLevel = .IntOff
  | _ => False

/-- The interrupt level where a thread is. -/
@[simp] def Place.HasLevel (level : IntStatus) : Place → Prop
  | .tick _ => level = .IntOn
  | .unborn | .outside | .yielded _ _ => True
  | _ => level = .IntOff

/-- Only the one that runs is inside `P` or `V`, with interrupts disabled. -/
structure Exclusion (s : Kernel) : Prop where
  nodup : s.readyList.Nodup
  ready : ∀ t ∈ s.readyList, (s.place (some t)).Resumable
  others : ∀ t, t ≠ s.currentThread →
    (s.place (some t)).Resumable ∨ s.place (some t) = .unborn
  handlerOut : s.inHandler = false → s.place none = .outside
  handlerIn : (s.place none).OfHandler
  context : s.inHandler = true → s.level = .IntOff ∧
    ((∃ inCall, s.place (some s.currentThread) = .tick inCall) ∨
      (s.place (some s.currentThread)).Asleep)
  thread : s.inHandler = false → (s.place (some s.currentThread)).HasLevel s.level

variable {t u n x : ℕ} {a : Option ℕ} {p : Place} {oldLevel : IntStatus} {woken : Bool}

theorem running_some {s : Kernel} (h : s.running = some t) :
    s.inHandler = false ∧ s.currentThread = t := by
  unfold running at h
  split_ifs at h with hi
  exact ⟨eq_false_of_ne_true hi, Option.some.inj h⟩

theorem running_none {s : Kernel} (h : s.running = none) : s.inHandler = true := by
  unfold running at h
  split_ifs at h with hi
  exact hi

/-- The one that runs goes on to `p`, and the lists stay as they are. -/
theorem Exclusion.move {s s' : Kernel} (h : Exclusion s) (ha : s.running = a)
    (hnot : ¬ (s.place a).Resumable) (hplace : s'.place = update s.place a p)
    (hready : s'.readyList = s.readyList) (hcur : s'.currentThread = s.currentThread)
    (hin : s'.inHandler = s.inHandler) (hthread : a ≠ none → p.HasLevel s'.level)
    (hhandler : a = none → s'.level = .IntOff ∧ p.OfHandler) : Exclusion s' := by
  cases a with
  | none =>
    have hi := running_none ha
    obtain ⟨hoff, hp⟩ := hhandler rfl
    have hother : ∀ t, s'.place (some t) = s.place (some t) := fun t => by simp [hplace]
    refine ⟨hready ▸ h.nodup, ?_, ?_, ?_, ?_, ?_, ?_⟩
    · simpa only [hready, hother] using h.ready
    · simpa only [hcur, hother] using h.others
    · intro hfalse
      rw [hin, hi] at hfalse
      cases hfalse
    · simpa only [hplace, update_self] using hp
    · intro _
      rw [hcur, hother]
      exact ⟨hoff, (h.context hi).2⟩
    · intro hfalse
      rw [hin, hi] at hfalse
      cases hfalse
  | some t =>
    obtain ⟨hi, rfl⟩ := running_some ha
    have hself : s'.place (some s.currentThread) = p := by simp [hplace]
    have hother : ∀ t, t ≠ s.currentThread → s'.place (some t) = s.place (some t) := by
      intro t ht
      simp [hplace, ht]
    have hnone : s'.place none = s.place none := by simp [hplace]
    refine ⟨hready ▸ h.nodup, ?_, ?_, ?_, ?_, ?_, ?_⟩
    · intro t ht
      rw [hready] at ht
      have hne : t ≠ s.currentThread := by
        rintro rfl
        exact hnot (h.ready _ ht)
      rw [hother t hne]
      exact h.ready t ht
    · intro t ht
      rw [hcur] at ht
      rw [hother t ht]
      exact h.others t ht
    · rw [hin, hnone]
      exact h.handlerOut
    · rw [hnone]
      exact h.handlerIn
    · intro htrue
      rw [hin, hi] at htrue
      cases htrue
    · intro _
      rw [hcur, hself]
      exact hthread (by simp)

/-- A thread that is switched out is put on the ready list. -/
theorem Exclusion.readyToRun {s : Kernel} (h : Exclusion s) (hu : u ∉ s.readyList)
    (hp : (s.place (some u)).Resumable) : Exclusion (s.readyToRun u) :=
  { h with
    nodup := by
      simp only [Kernel.readyToRun, List.nodup_append, List.nodup_singleton, h.nodup, true_and,
        List.mem_singleton]
      rintro t ht _ rfl rfl
      exact hu ht
    ready := by
      intro t ht
      simp only [Kernel.readyToRun, List.mem_append, List.mem_singleton] at ht
      rcases ht with ht | rfl
      · exact h.ready t ht
      · exact hp }

/-- The place at which `Run` resumes a thread, and the level there. -/
theorem Kernel.run_place {s : Kernel} (hoff : s.level = .IntOff) :
    ∃ p, (run n s).place = update s.place (some n) p ∧ p.HasLevel (run n s).level := by
  cases hn : s.place (some n) with
  | yielded oldLevel inCall =>
    simp only [run, hn, Kernel.setLevel, hoff]
    refine ⟨_, rfl, ?_⟩
    cases oldLevel <;> simp
  | _ =>
    simp only [run, hn, goto, hoff]
    refine ⟨_, rfl, ?_⟩
    simp

theorem Kernel.run_static (n : ℕ) (s : Kernel) : (run n s).currentThread = n ∧
    (run n s).inHandler = s.inHandler ∧ (run n s).readyList = s.readyList ∧
    (run n s).sems = s.sems ∧ (run n s).woken = s.woken ∧
    (run n s).completedP = s.completedP ∧ (run n s).completedV = s.completedV ∧
    (run n s).found = s.found := by
  cases hn : s.place (some n) <;> simp [run, hn, Kernel.setLevel]

/-- The thread at the head of the ready list is run, in place of one that was switched out. -/
theorem Exclusion.run {s s₀ : Kernel} (h : Exclusion s) (hready : s.readyList = n :: s₀.readyList)
    (hs : s₀ = { s with readyList := s₀.readyList }) (hi : s.inHandler = false)
    (hout : (s.place (some s.currentThread)).Resumable) (hoff : s.level = .IntOff) :
    Exclusion (Kernel.run n s₀) := by
  have hoff₀ : s₀.level = .IntOff := by rw [hs]; exact hoff
  obtain ⟨p, hplace, hlevel⟩ := run_place (n := n) hoff₀
  obtain ⟨hcur, hin, hrl, -⟩ := run_static n s₀
  have hp₀ : s₀.place = s.place := by rw [hs]
  have hi₀ : s₀.inHandler = false := by rw [hs]; exact hi
  have hnodup : (n :: s₀.readyList).Nodup := hready ▸ h.nodup
  have hother : ∀ t, t ≠ n → (Kernel.run n s₀).place (some t) = s.place (some t) := by
    intro t ht
    simp [hplace, hp₀, ht]
  have hself : (Kernel.run n s₀).place (some n) = p := by simp [hplace]
  have hnone : (Kernel.run n s₀).place none = s.place none := by simp [hplace, hp₀]
  refine ⟨?_, ?_, ?_, ?_, ?_, ?_, ?_⟩
  · rw [hrl]
    exact hnodup.of_cons
  · intro t ht
    rw [hrl] at ht
    have hne : t ≠ n := by
      rintro rfl
      exact hnodup.notMem ht
    rw [hother t hne]
    exact h.ready t (by rw [hready]; exact List.mem_cons_of_mem _ ht)
  · intro t ht
    rw [hcur] at ht
    rw [hother t ht]
    by_cases htc : t = s.currentThread
    · exact Or.inl (htc ▸ hout)
    · exact h.others t htc
  · intro _
    rw [hnone]
    exact h.handlerOut hi
  · rw [hnone]
    exact h.handlerIn
  · intro htrue
    rw [hin, hi₀] at htrue
    cases htrue
  · intro _
    rw [hcur, hself]
    exact hlevel

/-! ### Queues -/

/-- Who is in the lists: a thread in a queue is in `P` on that semaphore, and is not ready; the
woken threads are those that `V` made ready, and those about to test again. -/
structure Queues (s : Kernel) : Prop where
  nodup : ∀ x, (s.sems x).queue.Nodup
  queued : ∀ x t, t ∈ (s.sems x).queue → t ∉ s.readyList ∧
    ∃ oldLevel, s.place (some t) = .pSleep x oldLevel ∨ s.place (some t) = .pAsleep x oldLevel
  wokenNodup : ∀ x, (s.woken x).Nodup
  woken : ∀ x t, t ∈ s.woken x ↔ (∃ oldLevel, s.place (some t) = .pAsleep x oldLevel) ∧
    t ∈ s.readyList ∨ ∃ oldLevel, s.place (some t) = .pTest x oldLevel true

/-- The places that say nothing about the lists. -/
@[simp] def Place.Neutral : Place → Prop
  | .pSleep _ _ | .pAsleep _ _ | .pTest _ _ true => False
  | _ => True

/-- A step between places that say nothing about the lists. -/
theorem Queues.move {s s' : Kernel} (h : Queues s) (hplace : s'.place = update s.place a p)
    (hready : s'.readyList = s.readyList) (hqueue : ∀ x, (s'.sems x).queue = (s.sems x).queue)
    (hwoken : s'.woken = s.woken) (hold : (s.place a).Neutral) (hnew : p.Neutral) : Queues s' := by
  have hsame : ∀ t, s'.place (some t) = s.place (some t) ∨
      (s'.place (some t)).Neutral ∧ (s.place (some t)).Neutral := by
    intro t
    by_cases ht : some t = a
    · subst ht
      exact Or.inr ⟨by simpa [hplace] using hnew, hold⟩
    · exact Or.inl (by simp [hplace, ht])
  refine ⟨fun x => hqueue x ▸ h.nodup x, ?_, fun x => hwoken ▸ h.wokenNodup x, ?_⟩
  · intro x t ht
    rw [hqueue] at ht
    obtain ⟨hr, oldLevel, hp⟩ := h.queued x t ht
    rcases hsame t with heq | ⟨-, hn⟩
    · rw [hready, heq]
      exact ⟨hr, oldLevel, hp⟩
    · rcases hp with hp | hp <;> exact absurd hn (by simp [hp])
  · intro x t
    rw [hwoken, h.woken, hready]
    rcases hsame t with heq | ⟨hn', hn⟩
    · rw [heq]
    · constructor
      · rintro (⟨⟨oldLevel, hp⟩, -⟩ | ⟨oldLevel, hp⟩) <;>
          exact absurd hn (by simp [hp])
      · rintro (⟨⟨oldLevel, hp⟩, -⟩ | ⟨oldLevel, hp⟩) <;>
          exact absurd hn' (by simp [hp])

/-- A thread that waits for no semaphore becomes ready. -/
theorem Queues.readyToRun {s : Kernel} (h : Queues s) (hu : (s.place (some u)).Neutral) :
    Queues (s.readyToRun u) := by
  have hsleep : ∀ x oldLevel, s.place (some u) ≠ .pSleep x oldLevel ∧
      s.place (some u) ≠ .pAsleep x oldLevel := by
    intro x oldLevel
    constructor <;> intro hp <;> simp [hp] at hu
  refine ⟨h.nodup, ?_, h.wokenNodup, ?_⟩
  · intro x t ht
    obtain ⟨hr, oldLevel, hp⟩ := h.queued x t ht
    refine ⟨?_, oldLevel, hp⟩
    simp only [Kernel.readyToRun, List.mem_append, List.mem_singleton, not_or]
    refine ⟨hr, ?_⟩
    rintro rfl
    rcases hp with hp | hp
    · exact (hsleep x oldLevel).1 hp
    · exact (hsleep x oldLevel).2 hp
  · intro x t
    have hiff : (∃ oldLevel, s.place (some t) = .pAsleep x oldLevel) → (t ∈ s.readyList ++ [u] ↔
        t ∈ s.readyList) := by
      rintro ⟨oldLevel, hp⟩
      simp only [List.mem_append, List.mem_singleton, or_iff_left_iff_imp]
      rintro rfl
      exact absurd hp (hsleep x oldLevel).2
    refine (h.woken x t).trans ?_
    simp only [Kernel.readyToRun]
    constructor
    · rintro (⟨hp, hr⟩ | hp)
      · exact Or.inl ⟨hp, (hiff hp).2 hr⟩
      · exact Or.inr hp
    · rintro (⟨hp, hr⟩ | hp)
      · exact Or.inl ⟨hp, (hiff hp).1 hr⟩
      · exact Or.inr hp

/-- A ready thread is run: if `V` woke it, it will test again. -/
theorem Queues.run {s : Kernel} (h : Queues s) (hE : Exclusion s) {rest : List ℕ}
    (hready : s.readyList = n :: rest) : Queues (Kernel.run n { s with readyList := rest }) := by
  obtain ⟨-, -, hrl, hsems, hwoken, -⟩ := run_static n { s with readyList := rest }
  have hn : n ∈ s.readyList := by rw [hready]; exact List.mem_cons_self
  have hnodup : (n :: rest).Nodup := hready ▸ hE.nodup
  have hrest : ∀ t, t ≠ n → (t ∈ rest ↔ t ∈ s.readyList) := by
    intro t ht
    simp [hready, ht]
  obtain ⟨p, hplace, hnp, hp⟩ : ∃ p, (Kernel.run n { s with readyList := rest }).place =
      update s.place (some n) p ∧ (∀ x oldLevel, p ≠ .pAsleep x oldLevel) ∧
      ∀ x, (∃ oldLevel, p = .pTest x oldLevel true) ↔
        ∃ oldLevel, s.place (some n) = .pAsleep x oldLevel := by
    cases hcase : s.place (some n) with
    | pAsleep y oldLevel =>
      refine ⟨.pTest y oldLevel true, ?_, by simp, by simp⟩
      simp only [Kernel.run, hcase, goto]
    | yielded oldLevel inCall =>
      simp only [Kernel.run, hcase, Kernel.setLevel]
      refine ⟨_, rfl, ?_, ?_⟩
      · intro x l
        split_ifs <;> simp
      · intro x
        split_ifs <;> simp
    | _ => exact ⟨.outside, by simp only [Kernel.run, hcase, goto], by simp, by simp⟩
  have hself : (Kernel.run n { s with readyList := rest }).place (some n) = p := by simp [hplace]
  have hother : ∀ t, t ≠ n →
      (Kernel.run n { s with readyList := rest }).place (some t) = s.place (some t) := by
    intro t ht
    simp [hplace, ht]
  refine ⟨fun x => by rw [hsems]; exact h.nodup x, ?_,
    fun x => by rw [hwoken]; exact h.wokenNodup x, ?_⟩
  · intro x t ht
    rw [hsems] at ht
    obtain ⟨hr, hq⟩ := h.queued x t ht
    have hne : t ≠ n := by
      rintro rfl
      exact hr hn
    rw [hrl, hother t hne]
    exact ⟨fun hmem => hr ((hrest t hne).1 hmem), hq⟩
  · intro x t
    rw [hwoken, hrl]
    refine (h.woken x t).trans ?_
    by_cases hne : t = n
    · subst hne
      rw [hself, hp x]
      constructor
      · rintro (⟨hasleep, -⟩ | ⟨oldLevel, htest⟩)
        · exact Or.inr hasleep
        · have := hE.ready t hn
          simp [htest] at this
      · rintro (⟨⟨oldLevel, hpa⟩, -⟩ | hasleep)
        · exact absurd hpa (hnp x oldLevel)
        · exact Or.inl ⟨hasleep, hn⟩
    · rw [hother t hne, show t ∈ rest ↔ t ∈ s.readyList from hrest t hne]

/-! ### The steps that move threads between the lists -/

/-- Only the value of a semaphore changes. -/
theorem setSem_queue {s : Kernel} {y : ℕ} {sem : Semaphore} (h : sem.queue = (s.sems x).queue) :
    ((s.setSem x sem).sems y).queue = (s.sems y).queue :=
  Update.map_update Semaphore.queue h y

/-- The thread that tests `value` leaves the woken ones, if it was among them. -/
theorem Queues.mem_retest {s : Kernel} (h : Queues s)
    (hp : s.place (some t) = .pTest x oldLevel woken) (y u : ℕ) :
    u ∈ (s.retest t x woken).woken y ↔ u ∈ s.woken y ∧ u ≠ t := by
  have ht : ∀ y, t ∈ s.woken y → woken = true ∧ y = x := by
    intro y hy
    rcases (h.woken y t).1 hy with ⟨⟨l, hl⟩, -⟩ | ⟨l, hl⟩
    · rw [hp] at hl
      cases hl
    · rw [hp] at hl
      cases hl
      exact ⟨rfl, rfl⟩
  by_cases hy : woken = true ∧ y = x
  · obtain ⟨rfl, rfl⟩ := hy
    simp only [retest, if_true, update_self]
    rw [(h.wokenNodup y).mem_erase_iff]
    exact and_comm
  · have hsame : (s.retest t x woken).woken y = s.woken y := by
      cases woken with
      | false => rfl
      | true => exact retest_woken_of_ne fun hyx => hy ⟨rfl, hyx⟩
    rw [hsame]
    refine ⟨fun hu => ⟨hu, ?_⟩, And.left⟩
    rintro rfl
    exact hy (ht y hu)

theorem Queues.nodup_retest {s : Kernel} (h : Queues s) (y : ℕ) :
    ((s.retest t x woken).woken y).Nodup := by
  by_cases hy : y = x
  · subst hy
    cases woken with
    | false => exact h.wokenNodup y
    | true =>
      simp only [retest, if_true, update_self]
      exact (h.wokenNodup y).erase t
  · rw [retest_woken_of_ne hy]
    exact h.wokenNodup y

/-- The woken threads, when the thread that tests goes on at a place where it is not one. -/
theorem Queues.woken_test {s : Kernel} (h : Queues s)
    (hp : s.place (some t) = .pTest x oldLevel woken) (h1 : ∀ y l, p ≠ .pAsleep y l)
    (h2 : ∀ y l, p ≠ .pTest y l true) (y u : ℕ) :
    u ∈ (s.retest t x woken).woken y ↔
      (∃ l, update s.place (some t) p (some u) = .pAsleep y l) ∧ u ∈ s.readyList ∨
        ∃ l, update s.place (some t) p (some u) = .pTest y l true := by
  rw [h.mem_retest hp, h.woken]
  by_cases hut : u = t
  · subst hut
    simp [h1, h2]
  · simp [hut]

section Lists

variable {s : Kernel} (hE : Exclusion s) (h : Queues s)
include hE h

/-- A thread that is awake is in no list. -/
theorem Queues.not_mem (hr : ¬ (s.place (some t)).Resumable)
    (hs : ∀ x oldLevel, s.place (some t) ≠ .pSleep x oldLevel) :
    t ∉ s.readyList ∧ ∀ x, t ∉ (s.sems x).queue := by
  refine ⟨fun ht => hr (hE.ready t ht), fun x ht => ?_⟩
  obtain ⟨-, oldLevel, hp | hp⟩ := h.queued x t ht
  · exact hs x oldLevel hp
  · exact hr (by simp [hp])

/-- The thread that tests goes on to `p`; nobody else is appended to a queue. -/
theorem Queues.tested {s' : Kernel} (hp : s.place (some t) = .pTest x oldLevel woken)
    (h1 : ∀ y l, p ≠ .pAsleep y l) (h2 : ∀ y l, p ≠ .pTest y l true)
    (hplace : s'.place = update s.place (some t) p) (hready : s'.readyList = s.readyList)
    (hwoken : s'.woken = (s.retest t x woken).woken) (hnodup : ∀ y, (s'.sems y).queue.Nodup)
    (hqueue : ∀ y u, u ∈ (s'.sems y).queue →
      u ∈ (s.sems y).queue ∨ u = t ∧ ∃ l, p = .pSleep y l) : Queues s' := by
  obtain ⟨hnr, hnq⟩ := h.not_mem hE (t := t) (by simp [hp]) (by simp [hp])
  refine ⟨hnodup, fun y u hu => ?_, hwoken ▸ h.nodup_retest, ?_⟩
  · rw [hready, hplace]
    rcases hqueue y u hu with hu | ⟨rfl, l, rfl⟩
    · have hut : u ≠ t := by
        rintro rfl
        exact hnq y hu
      simpa [hut] using h.queued y u hu
    · exact ⟨hnr, l, Or.inl (update_self ..)⟩
  · rw [hwoken, hready, hplace]
    exact h.woken_test hp h1 h2

/-- The test of the loop in `P`. -/
theorem Queues.test (hp : s.place (some t) = .pTest x oldLevel woken) :
    Queues (s.test t x oldLevel woken) := by
  obtain ⟨-, hnq⟩ := h.not_mem hE (t := t) (by simp [hp]) (by simp [hp])
  unfold Kernel.test
  simp only [retest_sems]
  split_ifs with hv
  · refine h.tested hE hp (p := .pSleep x oldLevel) (by simp) (by simp) (by simp)
      (by simp) rfl (fun y => ?_) fun y u hu => ?_
    · simp only [setSem, goto, retest_sems]
      by_cases hy : y = x
      · subst hy
        simp only [update_self, List.nodup_append, h.nodup y, List.nodup_singleton,
          List.mem_singleton, true_and]
        rintro u hu _ rfl rfl
        exact hnq y hu
      · rw [update_of_ne hy]
        exact h.nodup y
    · simp only [setSem, goto, retest_sems] at hu
      by_cases hy : y = x
      · subst hy
        simpa using hu
      · rw [update_of_ne hy] at hu
        exact Or.inl hu
  · have hqueue : ∀ y, (((s.retest t x woken).setSem x
        { s.sems x with value := (s.sems x).value - 1 }).sems y).queue = (s.sems y).queue := by
      intro y
      rw [setSem_queue (by simp), retest_sems]
    exact h.tested hE hp (p := .pDone x oldLevel) (by simp) (by simp) (by simp)
      (by simp) rfl (fun y => (hqueue y).symm ▸ h.nodup y)
      fun y u hu => Or.inl (hqueue y ▸ hu)

/-- The thread that appended itself goes to sleep. -/
theorem Queues.sleep (hp : s.place (some t) = .pSleep x oldLevel) :
    Queues (s.goto (some t) (.pAsleep x oldLevel)) := by
  have hready : t ∉ s.readyList := by
    intro ht
    have := hE.ready t ht
    simp [hp] at this
  refine ⟨h.nodup, ?_, h.wokenNodup, ?_⟩
  · intro y u hu
    obtain ⟨hr, l, hl⟩ := h.queued y u hu
    refine ⟨hr, l, ?_⟩
    by_cases hut : u = t
    · subst hut
      rw [hp] at hl
      rcases hl with hl | hl <;> cases hl
      exact Or.inr (by simp)
    · simpa [hut] using hl
  · intro y u
    refine (h.woken y u).trans ?_
    by_cases hut : u = t
    · subst hut
      simp [hp, hready]
    · simp [hut]

/-- A thread in a queue is asleep, when `V` looks at the queue. -/
theorem Queues.asleep (ha : s.running = a) (hp : ∀ x l, s.place a ≠ .pSleep x l)
    (hu : u ∈ (s.sems x).queue) : ∃ oldLevel, s.place (some u) = .pAsleep x oldLevel := by
  obtain ⟨-, l, hl | hl⟩ := h.queued x u hu
  · exfalso
    by_cases huc : u = s.currentThread
    · subst huc
      cases a with
      | none =>
        rcases (hE.context (running_none ha)).2 with ⟨b, hb⟩ | hb
        · rw [hl] at hb
          cases hb
        · simp [hl] at hb
      | some t =>
        obtain ⟨-, rfl⟩ := running_some ha
        exact hp x l hl
    · rcases hE.others u huc with hb | hb
      · simp [hl] at hb
      · rw [hl] at hb
        cases hb
  · exact ⟨l, hl⟩

/-- `V` puts the first thread of the queue on the ready list. -/
theorem Queues.wakeFirst {queue : List ℕ} (ha : s.running = a) (hp : ∀ x l, s.place a ≠ .pSleep x l)
    (hq : (s.sems x).queue = u :: queue) :
    Queues { (s.setSem x { s.sems x with queue := queue }).readyToRun u with
      woken := update s.woken x (u :: s.woken x) } := by
  have hu : u ∈ (s.sems x).queue := by rw [hq]; exact List.mem_cons_self
  obtain ⟨l, hl⟩ := h.asleep hE ha hp hu
  have hready := (h.queued x u hu).1
  have hnodup : (u :: queue).Nodup := hq ▸ h.nodup x
  -- in no other queue, and not among the woken
  have honly : ∀ y, u ∈ (s.sems y).queue → y = x := by
    intro y hy
    obtain ⟨-, l', hl' | hl'⟩ := h.queued y u hy <;> rw [hl] at hl' <;> cases hl'
    rfl
  have hnotwoken : ∀ y, u ∉ s.woken y := by
    intro y hy
    rcases (h.woken y u).1 hy with ⟨-, hr⟩ | ⟨l', hl'⟩
    · exact hready hr
    · rw [hl] at hl'
      cases hl'
  have hsub : ∀ y v, v ∈ ((s.setSem x { s.sems x with queue := queue }).sems y).queue →
      v ∈ (s.sems y).queue ∧ v ≠ u := by
    intro y v hv
    by_cases hy : y = x
    · subst hy
      simp only [setSem, update_self] at hv
      refine ⟨by rw [hq]; exact List.mem_cons_of_mem _ hv, ?_⟩
      rintro rfl
      exact hnodup.notMem hv
    · simp only [setSem, update_of_ne hy] at hv
      refine ⟨hv, ?_⟩
      rintro rfl
      exact hy (honly y hv)
  refine ⟨?_, ?_, ?_, ?_⟩
  · intro y
    by_cases hy : y = x
    · subst hy
      simpa using hnodup.of_cons
    · simpa [hy] using h.nodup y
  · intro y v hv
    obtain ⟨hv, hne⟩ := hsub y v hv
    obtain ⟨hr, hplace⟩ := h.queued y v hv
    refine ⟨?_, hplace⟩
    simp [hr, hne]
  · intro y
    by_cases hy : y = x
    · subst hy
      simpa using ⟨hnotwoken y, h.wokenNodup y⟩
    · simpa [hy] using h.wokenNodup y
  · intro y v
    simp only [Kernel.readyToRun, setSem, List.mem_append, List.mem_singleton]
    by_cases hvu : v = u
    · subst hvu
      by_cases hy : y = x
      · subst hy
        simp [hl]
      · simp [hy, hnotwoken y, hl, Ne.symm hy]
    · have hv := h.woken y v
      by_cases hy : y = x
      · subst hy
        simpa [hvu] using hv
      · simpa [hvu, hy] using hv

end Lists

/-! ### Both hold in all runs -/

/-- A step of the one that runs, which neither sleeps nor is woken. -/
theorem move_both {s s' : Kernel} (hE : Exclusion s) (hQ : Queues s) (ha : s.running = a)
    (hold : ¬ (s.place a).Resumable ∧ (s.place a).Neutral) (hplace : s'.place = update s.place a p)
    (hready : s'.readyList = s.readyList) (hcur : s'.currentThread = s.currentThread)
    (hin : s'.inHandler = s.inHandler) (hqueue : ∀ x, (s'.sems x).queue = (s.sems x).queue)
    (hwoken : s'.woken = s.woken) (hnew : p.Neutral) (hthread : a ≠ none → p.HasLevel s'.level)
    (hhandler : a = none → s'.level = .IntOff ∧ p.OfHandler) : Exclusion s' ∧ Queues s' :=
  ⟨hE.move ha hold.1 hplace hready hcur hin hthread hhandler,
    hQ.move hplace hready hqueue hwoken hold.2 hnew⟩

/-- A handler runs with interrupts disabled. -/
theorem Exclusion.handler_off {s : Kernel} (h : Exclusion s) (ha : s.running = none) :
    s.level = .IntOff := (h.context (running_none ha)).1

/-- Inside `P` and `V`, and in `Sleep`, interrupts are disabled. -/
theorem Exclusion.inside_off {s : Kernel} (h : Exclusion s) (ha : s.running = a)
    (hp : (s.place a).Inside ∨ (s.place a).Asleep) : s.level = .IntOff := by
  cases a with
  | none => exact h.handler_off ha
  | some t =>
    obtain ⟨hi, rfl⟩ := running_some ha
    have hlevel := h.thread hi
    cases hc : s.place (some s.currentThread) <;> simp_all

/-- The end of `P` or `V`. -/
theorem restore_both {s : Kernel} (hE : Exclusion s) (hQ : Queues s) {inCall : Bool}
    (ha : s.running = a) (hold : ¬ (s.place a).Resumable ∧ (s.place a).Neutral)
    (hsaved : a = none → oldLevel = .IntOff) :
    Exclusion (s.setLevel a oldLevel inCall) ∧ Queues (s.setLevel a oldLevel inCall) := by
  refine move_both hE hQ ha hold rfl rfl rfl rfl (fun _ => rfl) rfl ?_ ?_ ?_
  · split_ifs <;> simp
  · intro _
    split_ifs with hl <;> simp [hl, Kernel.setLevel]
  · intro hnone
    simp [hsaved hnone, Kernel.setLevel]

/-- A thread that was switched out makes way for the first ready one. -/
theorem run_both {s : Kernel} (hE : Exclusion s) (hQ : Queues s) {rest : List ℕ}
    (hready : s.readyList = n :: rest) (hi : s.inHandler = false)
    (hout : (s.place (some s.currentThread)).Resumable) (hoff : s.level = .IntOff) :
    Exclusion (Kernel.run n { s with readyList := rest }) ∧
      Queues (Kernel.run n { s with readyList := rest }) :=
  ⟨hE.run hready rfl hi hout hoff, hQ.run hE hready⟩

theorem yield_both {s : Kernel} (hE : Exclusion s) (hQ : Queues s) {inCall : Bool}
    (ha : s.running = some t) (hp : s.place (some t) = .outside ∨ s.place (some t) = .tick inCall) :
    Exclusion (s.yield t inCall) ∧ Queues (s.yield t inCall) := by
  have hold : ¬ (s.place (some t)).Resumable ∧ (s.place (some t)).Neutral := by
    rcases hp with hp | hp <;> simp [hp]
  have hmem : t ∉ s.readyList := fun ht => hold.1 (hE.ready t ht)
  obtain ⟨hi, rfl⟩ := running_some ha
  cases hrl : s.readyList with
  | nil =>
    rw [yield_nil hrl]
    refine move_both hE hQ ha hold rfl rfl rfl rfl (fun _ => rfl) rfl ?_ ?_ (by simp)
    · split_ifs <;> simp
    · intro _
      split_ifs with hl <;> simp [hl, Kernel.setLevel]
  | cons n rest =>
    -- switched out first, then on the ready list, then the first ready thread runs
    let s₁ : Kernel := { s.goto (some s.currentThread) (.yielded s.level inCall) with
      level := .IntOff }
    have h₁ : Exclusion s₁ ∧ Queues s₁ :=
      move_both hE hQ ha hold rfl rfl rfl rfl (fun _ => rfl) rfl (by simp) (by simp) (by simp)
    have hself : s₁.place (some s.currentThread) = .yielded s.level inCall := by
      simp [s₁]
    have hE₂ : Exclusion (s₁.readyToRun s.currentThread) :=
      h₁.1.readyToRun hmem (by simp [hself])
    have hQ₂ : Queues (s₁.readyToRun s.currentThread) := h₁.2.readyToRun (by simp [hself])
    have hready : (s₁.readyToRun s.currentThread).readyList =
        n :: (rest ++ [s.currentThread]) := by
      simp [s₁, hrl]
    have h₃ := run_both hE₂ hQ₂ hready hi (by simp [s₁]) rfl
    rw [yield_cons hrl]
    exact h₃

theorem remove_both {s : Kernel} (hE : Exclusion s) (hQ : Queues s) (ha : s.running = a)
    (hp : s.place a = .vRemove x oldLevel) :
    Exclusion (s.remove a x oldLevel) ∧ Queues (s.remove a x oldLevel) := by
  have hoff := hE.inside_off ha (by simp [hp])
  have hold : ¬ (s.place a).Resumable ∧ (s.place a).Neutral := by simp [hp]
  have hhandler : a = none → s.level = .IntOff ∧ (Place.vAdd x oldLevel).OfHandler := by
    rintro rfl
    exact ⟨hoff, by simpa [hp] using hE.handlerIn⟩
  cases hq : (s.sems x).queue with
  | nil =>
    simp only [Kernel.remove, hq]
    exact move_both hE hQ ha hold rfl rfl rfl rfl (fun _ => rfl) rfl (by simp) (fun _ => hoff)
      hhandler
  | cons u queue =>
    have hu : u ∈ (s.sems x).queue := by rw [hq]; exact List.mem_cons_self
    obtain ⟨l, hl⟩ := hQ.asleep hE ha (by simp [hp]) hu
    have hE₁ : Exclusion { (s.setSem x { s.sems x with queue := queue }).readyToRun u with
        woken := update s.woken x (u :: s.woken x) } :=
      { hE.readyToRun (hQ.queued x u hu).1 (by simp [hl]) with }
    have hQ₁ := hQ.wakeFirst hE ha (by simp [hp]) hq
    simp only [Kernel.remove, hq]
    exact move_both hE₁ hQ₁ ha hold rfl rfl rfl rfl (fun _ => rfl) rfl (by simp) (fun _ => hoff)
      hhandler

/-- The test of the loop in `P`. -/
theorem Exclusion.test {s : Kernel} (hE : Exclusion s) (ha : s.running = some t)
    (hp : s.place (some t) = .pTest x oldLevel woken) : Exclusion (s.test t x oldLevel woken) := by
  have hE₁ : Exclusion (s.retest t x woken) := by cases woken <;> exact { hE with }
  have ha₁ : (s.retest t x woken).running = some t := by cases woken <;> exact ha
  have hoff₁ : (s.retest t x woken).level = .IntOff := by
    rw [retest_level]
    exact hE.inside_off ha (by simp [hp])
  have hnot : ¬ ((s.retest t x woken).place (some t)).Resumable := by simp [hp]
  unfold Kernel.test
  dsimp only
  split_ifs
  · exact hE₁.move ha₁ hnot rfl rfl rfl rfl (fun _ => hoff₁) (by simp)
  · exact hE₁.move ha₁ hnot rfl rfl rfl rfl (fun _ => hoff₁) (by simp)

/-- A thread that does not exist is put where it will be dispatched from. -/
theorem Exclusion.born {s : Kernel} (hE : Exclusion s) (hu : s.place (some u) = .unborn)
    (hne : s.currentThread ≠ u) : Exclusion (s.goto (some u) (.yielded .IntOn false)) := by
  have hself : (s.goto (some u) (.yielded .IntOn false)).place (some u) =
      .yielded .IntOn false := by simp
  have hother : ∀ t, t ≠ u →
      (s.goto (some u) (.yielded .IntOn false)).place (some t) = s.place (some t) := by
    intro t ht
    simp [ht]
  have hcur := hother s.currentThread hne
  refine ⟨hE.nodup, ?_, ?_, by simpa using hE.handlerOut,
    by simpa using hE.handlerIn, ?_, ?_⟩
  · intro t ht
    have hr := hE.ready t ht
    have htu : t ≠ u := by
      rintro rfl
      simp [hu] at hr
    rwa [hother t htu]
  · intro t ht
    by_cases htu : t = u
    · rw [htu, hself]
      exact Or.inl trivial
    · rw [hother t htu]
      exact hE.others t ht
  · intro hi
    have hc := hE.context hi
    rwa [← hcur] at hc
  · intro hi
    have hc := hE.thread hi
    rwa [← hcur] at hc

/-- `Thread::Fork`. -/
theorem fork_both {s : Kernel} (hE : Exclusion s) (hQ : Queues s) (ha : s.running = some t)
    (hp : s.place (some t) = .outside) (hu : s.place (some u) = .unborn) :
    Exclusion ((s.goto (some u) (.yielded .IntOn false)).readyToRun u) ∧
      Queues ((s.goto (some u) (.yielded .IntOn false)).readyToRun u) := by
  obtain ⟨hi, rfl⟩ := running_some ha
  have hmem : u ∉ s.readyList := by
    intro ht
    have hr := hE.ready u ht
    simp [hu] at hr
  have hne : s.currentThread ≠ u := by
    rintro rfl
    rw [hp] at hu
    cases hu
  have hself : (s.goto (some u) (.yielded .IntOn false)).place (some u) =
      .yielded .IntOn false := by simp
  have hQ₁ : Queues (s.goto (some u) (.yielded .IntOn false)) :=
    hQ.move rfl rfl (fun _ => rfl) rfl (by simp [hu]) (by simp)
  exact ⟨(hE.born hu hne).readyToRun hmem (by rw [hself]; trivial),
    hQ₁.readyToRun (by rw [hself]; trivial)⟩

/-- **Every step keeps both.** -/
theorem step_both {s s' : Kernel} {e : Event} (hE : Exclusion s) (hQ : Queues s)
    (h : KernelStep s e s') : Exclusion s' ∧ Queues s' := by
  obtain ⟨hen, rfl⟩ := h
  cases e with
  | callP t x =>
    obtain ⟨ha, hp⟩ := hen
    exact move_both hE hQ ha (by simp [hp]) rfl rfl rfl rfl (fun _ => rfl) rfl (by simp)
      (fun _ => rfl) (by simp)
  | test t x oldLevel woken => exact ⟨hE.test hen.1 hen.2, hQ.test hE hen.2⟩
  | sleep t x oldLevel =>
    obtain ⟨ha, hp⟩ := hen
    have hoff := hE.inside_off ha (by simp [hp])
    exact ⟨hE.move ha (by simp [hp]) rfl rfl rfl rfl (fun _ => hoff) (by simp), hQ.sleep hE hp⟩
  | dispatch t n rest =>
    obtain ⟨ha, hasleep, hready⟩ := hen
    have hoff := hE.inside_off ha (Or.inr hasleep)
    obtain ⟨hi, rfl⟩ := running_some ha
    refine run_both hE hQ hready hi ?_ hoff
    revert hasleep
    cases s.place (some s.currentThread) <;> simp
  | callV a x =>
    obtain ⟨ha, hp⟩ := hen
    refine move_both hE hQ ha (by simp [hp]) rfl rfl rfl rfl (fun _ => rfl) rfl (by simp)
      (fun _ => rfl) ?_
    rintro rfl
    exact ⟨rfl, hE.handler_off ha⟩
  | remove a x oldLevel => exact remove_both hE hQ hen.1 hen.2
  | add a x oldLevel =>
    obtain ⟨ha, hp⟩ := hen
    have hoff := hE.inside_off ha (by simp [hp])
    refine move_both hE hQ ha (by simp [hp]) rfl rfl rfl rfl (fun y => setSem_queue rfl) rfl
      (by simp) (fun _ => hoff) ?_
    rintro rfl
    exact ⟨hoff, by simpa [hp] using hE.handlerIn⟩
  | restoreP t x oldLevel | setLevel t now =>
    obtain ⟨ha, hp⟩ := hen
    exact restore_both hE hQ ha (by simp [hp]) (by simp)
  | restoreV a x oldLevel =>
    obtain ⟨ha, hp⟩ := hen
    refine restore_both hE hQ ha (by simp [hp]) ?_
    rintro rfl
    simpa [hp] using hE.handlerIn
  | tickEnd t inCall =>
    obtain ⟨ha, hp⟩ := hen
    exact move_both hE hQ ha (by simp [hp]) rfl rfl rfl rfl (fun _ => rfl) rfl (by simp) (by simp)
      (by simp)
  | interrupt t =>
    obtain ⟨ha, hp⟩ := hen
    obtain ⟨hi, rfl⟩ := running_some ha
    exact ⟨{ hE with
      handlerOut := by simp [Event.next]
      context := fun _ => ⟨rfl, hp⟩
      thread := by simp [Event.next] }, { hQ with }⟩
  | handlerEnd =>
    obtain ⟨hi, hp⟩ := hen
    refine ⟨{ hE with
      handlerOut := fun _ => hp
      context := by simp [Event.next]
      thread := fun _ => ?_ }, { hQ with }⟩
    cases hc : s.place (some s.currentThread) <;> simp [Event.next, hc]
  | tickYield t inCall => exact yield_both hE hQ hen.1 (Or.inr hen.2)
  | yield t => exact yield_both hE hQ hen.1 (Or.inl hen.2)
  | instruction t =>
    obtain ⟨ha, hp, hon⟩ := hen
    exact move_both hE hQ ha (by simp [hp]) rfl rfl rfl rfl (fun _ => rfl) rfl (by simp)
      (fun _ => hon) (by simp)
  | block t =>
    obtain ⟨ha, hp, hoff⟩ := hen
    exact move_both hE hQ ha (by simp [hp]) rfl rfl rfl rfl (fun _ => rfl) rfl (by simp)
      (fun _ => hoff) (by simp)
  | wake a u =>
    obtain ⟨-, -, hu, hmem⟩ := hen
    exact ⟨hE.readyToRun hmem (by simp [hu]), hQ.readyToRun (by simp [hu])⟩
  | fork t u => exact fork_both hE hQ hen.1 hen.2.1 hen.2.2

theorem KernelReach.both {initialValue : ℕ → BitVec 32} {s : Kernel}
    (h : KernelReach initialValue s) : Exclusion s ∧ Queues s := by
  refine Transition.Reach.invariant (I := fun s => Exclusion s ∧ Queues s) ?_ ?_ h
  · rintro s ⟨level, rfl⟩
    refine ⟨⟨List.nodup_nil, by simp, ?_, by simp, by simp, by simp, by simp⟩,
      ⟨fun _ => List.nodup_nil, by simp, fun _ => List.nodup_nil, ?_⟩⟩
    · intro t ht
      simp only at ht
      simp [ht]
    · intro x t
      simp only [List.not_mem_nil, false_iff]
      split_ifs <;> simp
  · rintro s e s' ⟨hE, hQ⟩ hst
    exact step_both hE hQ hst

end Nachos
