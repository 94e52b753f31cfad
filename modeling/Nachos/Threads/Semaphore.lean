import Nachos.Threads.Exclusion

/-!
# Semaphores count, and lose no wake-up

`semaphore_counting`: in every state of every run in which the units of a semaphore fit an `int`
(`FitReach`), its value is the initial value plus the completed `V`s minus the completed `P`s, and
is not negative; no thread waits twice; and if a thread waits, the value is at most the number of
threads that `V` has woken and that have not yet looked at the value again.  `P` and `V` leave the
interrupt level as they found it.  `semaphore_overflows`: `V` does not look for an overflow.

On top of `Exclusion` and `Queues` there are two more invariants: `Counting`, and `Levels`, what the
calls remember of the interrupt level.  A call is completed when it has changed the value; it may
be preempted after that, in its last `SetLevel`.
-/

namespace Nachos

open Kernel Function Transition Update

/-! ### Steps that touch no semaphore -/

/-- Nothing has happened to the semaphores, and nobody has come to `value++`. -/
structure SameSems (s s' : Kernel) : Prop where
  sems : s'.sems = s.sems
  woken : s'.woken = s.woken
  completedP : s'.completedP = s.completedP
  completedV : s'.completedV = s.completedV
  vAdd : ∀ a x oldLevel, s'.place a = .vAdd x oldLevel → s.place a = .vAdd x oldLevel

namespace SameSems

variable {s s' s'' : Kernel}

theorem trans (h : SameSems s s') (h' : SameSems s' s'') : SameSems s s'' where
  sems := h'.sems.trans h.sems
  woken := h'.woken.trans h.woken
  completedP := h'.completedP.trans h.completedP
  completedV := h'.completedV.trans h.completedV
  vAdd a x oldLevel ha := h.vAdd a x oldLevel (h'.vAdd a x oldLevel ha)

theorem goto (s : Kernel) (a : Option ℕ) {p : Place} (hp : ∀ x oldLevel, p ≠ .vAdd x oldLevel) :
    SameSems s (s.goto a p) :=
  ⟨rfl, rfl, rfl, rfl, fun _ x oldLevel h => (of_update_eq h (hp x oldLevel)).2⟩

theorem enter (s : Kernel) (a : Option ℕ) {p : IntStatus → Place}
    (hp : ∀ l x oldLevel, p l ≠ .vAdd x oldLevel) : SameSems s (s.enter a p) :=
  { goto s a (hp s.level) with }

theorem setLevel (s : Kernel) (a : Option ℕ) (now : IntStatus) (inCall : Bool) :
    SameSems s (s.setLevel a now inCall) := by
  have hp : ∀ x oldLevel, (if now = .IntOn ∧ s.level = .IntOff then Place.tick inCall
      else .outside) ≠ .vAdd x oldLevel := by
    intro x oldLevel
    split_ifs <;> simp
  exact { goto s a hp with }

theorem run (n : ℕ) (s : Kernel) : SameSems s (Kernel.run n s) := by
  have h₀ : SameSems s { s with currentThread := n } := ⟨rfl, rfl, rfl, rfl, fun _ _ _ h => h⟩
  cases hn : s.place (some n) with
  | yielded oldLevel inCall =>
    simp only [Kernel.run, hn]
    exact h₀.trans (setLevel ..)
  | _ =>
    simp only [Kernel.run, hn]
    exact h₀.trans (goto _ _ (by simp))

theorem yield (t : ℕ) (inCall : Bool) (s : Kernel) : SameSems s (s.yield t inCall) := by
  cases hrl : s.readyList with
  | nil =>
    rw [yield_nil hrl]
    exact { setLevel { s with level := .IntOff } _ _ _ with }
  | cons n rest =>
    rw [yield_cons hrl]
    have h₀ : SameSems s ({ s with level := .IntOff, readyList := rest }.readyToRun t) :=
      ⟨rfl, rfl, rfl, rfl, fun _ _ _ h => h⟩
    exact (h₀.trans (goto _ _ (by simp))).trans (run n _)

end SameSems

/-- The steps that touch a semaphore. -/
@[simp] def Event.OnSem : Event → Prop
  | .test .. => True
  | .remove .. => True
  | .add .. => True
  | _ => False

variable {e : Event} {a : Option ℕ} {t y : ℕ} {oldLevel : IntStatus}

theorem KernelStep.sameSems {s s' : Kernel} (h : KernelStep s e s') (he : ¬ e.OnSem) :
    SameSems s s' := by
  obtain ⟨-, rfl⟩ := h
  have hsame : ∀ {s₁ : Kernel}, s₁.sems = s.sems → s₁.woken = s.woken →
      s₁.completedP = s.completedP → s₁.completedV = s.completedV → s₁.place = s.place →
      SameSems s s₁ := fun h1 h2 h3 h4 h5 => ⟨h1, h2, h3, h4, fun a x l h => h5 ▸ h⟩
  cases e with
  | test t x oldLevel woken | remove a x oldLevel | add a x oldLevel => exact absurd trivial he
  | callP t x => exact .enter s _ (p := fun l => .pTest x l false) (by simp)
  | callV a x => exact .enter s _ (p := fun l => .vRemove x l) (by simp)
  | sleep t x oldLevel | tickEnd t inCall | instruction t | block t => exact .goto _ _ (by simp)
  | restoreP t x oldLevel | restoreV a x oldLevel | setLevel t now => exact .setLevel ..
  | tickYield t inCall => exact .yield ..
  | yield t => exact .yield ..
  | dispatch t n rest =>
    have h₀ : SameSems s { s with readyList := rest } := hsame rfl rfl rfl rfl rfl
    exact h₀.trans (.run n _)
  | interrupt t | handlerEnd | wake a u => exact hsame rfl rfl rfl rfl rfl
  | fork t u => exact { SameSems.goto s (some u) (p := .yielded .IntOn false) (by simp) with }

/-! ### Counting -/

/-- Only the one that runs is inside `P` or `V`. -/
theorem Exclusion.inside {s : Kernel} (h : Exclusion s) (ha : (s.place a).Inside) :
    s.running = a := by
  cases a with
  | none =>
    cases hi : s.inHandler with
    | false =>
      rw [h.handlerOut hi] at ha
      cases ha
    | true => simp [running, hi]
  | some t =>
    have hcur : t = s.currentThread := by
      by_contra hne
      rcases h.others t hne with hr | hr
      · revert ha hr
        cases s.place (some t) <;> simp
      · simp [hr] at ha
    subst hcur
    cases hi : s.inHandler with
    | false => simp [running, hi]
    | true =>
      rcases (h.context hi).2 with ⟨b, hb⟩ | hb
      · simp [hb] at ha
      · revert ha hb
        cases s.place (some s.currentThread) <;> simp

/-- The units of the semaphore `x`: those it started with, one more for each `V` and one less for
each `P`. -/
def Kernel.units (initialValue : ℕ → BitVec 32) (x : ℕ) (s : Kernel) : ℤ :=
  (initialValue x).toInt + s.completedV x - s.completedP x

/-- A `value++` on `x` does not overflow. -/
def Event.Fits (initialValue : ℕ → BitVec 32) (x : ℕ) (s : Kernel) : Event → Prop
  | .add _ y _ => y = x → s.units initialValue x < INTMAX
  | _ => True

/-- The states of the runs in which the units of `x` never exceed `INT_MAX`. -/
def FitReach (initialValue : ℕ → BitVec 32) (x : ℕ) (s : Kernel) : Prop :=
  Reach (KernelInit initialValue)
    (fun s e s' => KernelStep s e s' ∧ e.Fits initialValue x s) s

theorem toInt_add_one {v : BitVec 32} (h : v.toInt < INTMAX) : (v + 1).toInt = v.toInt + 1 := by
  rw [BitVec.toInt_add, show (1 : BitVec 32).toInt = 1 from rfl]
  have hle := BitVec.le_toInt v
  unfold INTMAX at h
  exact Int.bmod_eq_of_le (by omega) (by omega)

theorem toInt_sub_one {v : BitVec 32} (h : 0 ≤ v.toInt) : (v - 1).toInt = v.toInt - 1 := by
  rw [BitVec.toInt_sub, show (1 : BitVec 32).toInt = 1 from rfl]
  have hlt := BitVec.toInt_lt (x := v)
  exact Int.bmod_eq_of_le (by omega) (by omega)

/-- The value of `x` is its units, and covers the waiting threads. -/
structure Counting (initialValue : ℕ → BitVec 32) (x : ℕ) (s : Kernel) : Prop where
  count : (s.sems x).value.toInt = s.units initialValue x
  nonneg : 0 ≤ (s.sems x).value.toInt
  wake : (s.sems x).queue ≠ [] → (s.sems x).value.toInt ≤ (s.woken x).length
  -- between `Remove` and `value++` there is one woken thread to spare
  adding : ∀ a oldLevel, s.place a = .vAdd x oldLevel →
    (s.sems x).queue = [] ∨ (s.sems x).value.toInt + 1 ≤ (s.woken x).length

variable {initialValue : ℕ → BitVec 32} {x : ℕ}

/-- Steps that do not touch `x`. -/
theorem Counting.frame {s s' : Kernel} (h : Counting initialValue x s)
    (hsem : s'.sems x = s.sems x) (hwoken : s'.woken x = s.woken x)
    (hP : s'.completedP x = s.completedP x) (hV : s'.completedV x = s.completedV x)
    (hadd : ∀ a oldLevel, s'.place a = .vAdd x oldLevel → s.place a = .vAdd x oldLevel) :
    Counting initialValue x s' where
  count := by
    rw [hsem, Kernel.units, hP, hV]
    exact h.count
  nonneg := by
    rw [hsem]
    exact h.nonneg
  wake := by
    rw [hsem, hwoken]
    exact h.wake
  adding a oldLevel ha := by
    rw [hsem, hwoken]
    exact h.adding a oldLevel (hadd a oldLevel ha)

/-- Nobody else is at `value++` when the one that runs is not. -/
theorem Exclusion.no_vAdd {s : Kernel} (h : Exclusion s) {b : Option ℕ} (hb : s.running = b)
    (hp : ∀ x l, s.place b ≠ .vAdd x l) (a : Option ℕ) (x : ℕ) (l : IntStatus) :
    s.place a ≠ .vAdd x l := by
  intro hadd
  have hrun := h.inside (a := a) (by simp [hadd])
  rw [hb] at hrun
  subst hrun
  exact hp x l hadd

/-- The test of the loop: a unit is taken, or there is none and the thread waits. -/
theorem Counting.test {s : Kernel} (h : Counting initialValue x s) (hE : Exclusion s) {woken : Bool}
    (ha : s.running = some t) (hp : s.place (some t) = .pTest y oldLevel woken) :
    Counting initialValue x (s.test t y oldLevel woken) := by
  have hnoadd : ∀ a l, (s.test t y oldLevel woken).place a ≠ .vAdd x l := by
    intro a l hadd
    unfold Kernel.test at hadd
    simp only [retest_sems] at hadd
    split_ifs at hadd
    all_goals
      simp only [setSem, Kernel.goto, retest_place] at hadd
      exact hE.no_vAdd ha (by simp [hp]) a x l (of_update_eq hadd (by simp)).2
  by_cases hxy : x = y
  swap
  · refine h.frame ?_ ?_ ?_ ?_ fun a l hadd => absurd hadd (hnoadd a l) <;> unfold Kernel.test <;>
      simp only [retest_sems] <;> split_ifs <;>
      simp [hxy, retest_woken_of_ne hxy]
  subst hxy
  -- at most one thread fewer is woken
  have hlen : (s.woken x).length ≤ ((s.retest t x woken).woken x).length + 1 := by
    cases woken with
    | false => exact Nat.le_succ _
    | true =>
      simp only [retest, if_true, update_self, List.length_erase]
      split_ifs <;> omega
  obtain ⟨hcount, hnonneg, hwake, -⟩ := h
  refine ⟨?_, ?_, ?_, fun a l hadd => absurd hadd (hnoadd a l)⟩ <;> unfold Kernel.test <;>
    simp only [retest_sems] <;> split_ifs with hv
  · simpa [Kernel.units] using hcount
  · simp only [Kernel.units, setSem, Kernel.goto, update_self, retest_completedP,
      retest_completedV, toInt_sub_one hnonneg] at hcount ⊢
    push_cast
    omega
  · simpa using hnonneg
  · have hne : (s.sems x).value.toInt ≠ 0 := fun h0 => hv (BitVec.toInt_inj.1 h0)
    simp only [setSem, Kernel.goto, update_self, toInt_sub_one hnonneg]
    omega
  · intro _
    simp [hv]
  · intro hq
    simp only [setSem, Kernel.goto, update_self, toInt_sub_one hnonneg] at hq ⊢
    have := hwake hq
    omega

/-- `V` takes a thread off the queue: one more is woken. -/
theorem Counting.remove {s : Kernel} (h : Counting initialValue x s) (hE : Exclusion s)
    (ha : s.running = a) (hp : s.place a = .vRemove y oldLevel) :
    Counting initialValue x (s.remove a y oldLevel) := by
  -- the one that runs is the only one at `value++` afterwards
  have honly : ∀ b l, update s.place a (.vAdd y oldLevel) b = .vAdd x l → y = x := by
    intro b l hb
    rcases update_cases hb with ⟨-, heq⟩ | ⟨-, hb'⟩
    · cases heq
      rfl
    · exact absurd hb' (hE.no_vAdd ha (by simp [hp]) b x l)
  cases hq : (s.sems y).queue with
  | nil =>
    simp only [Kernel.remove, hq]
    refine ⟨h.count, h.nonneg, h.wake, fun b l hb => Or.inl ?_⟩
    rw [← honly b l hb]
    exact hq
  | cons u queue =>
    simp only [Kernel.remove, hq]
    by_cases hxy : x = y
    swap
    · refine h.frame ?_ ?_ rfl rfl fun b l hb => absurd (honly b l hb) (Ne.symm hxy)
      · simp [hxy]
      · simp [hxy]
    subst hxy
    have hle := h.wake (by rw [hq]; simp)
    refine ⟨?_, ?_, fun _ => ?_, fun b l _ => Or.inr ?_⟩
    · simpa [Kernel.units] using h.count
    · simpa using h.nonneg
    · simp only [setSem, Kernel.goto, Kernel.readyToRun, update_self, List.length_cons]
      omega
    · simp only [setSem, Kernel.goto, Kernel.readyToRun, update_self, List.length_cons]
      push_cast
      omega

theorem Counting.add {s : Kernel} (h : Counting initialValue x s) (hE : Exclusion s)
    (ha : s.running = a) (hp : s.place a = .vAdd y oldLevel)
    (hfit : y = x → s.units initialValue x < INTMAX) :
    Counting initialValue x (s.add a y oldLevel) := by
  have hnoadd : ∀ b l, (s.add a y oldLevel).place b ≠ .vAdd x l := by
    intro b l hb
    have hb₀ : update s.place a (.vDone y oldLevel) b = .vAdd x l := hb
    obtain ⟨hba, hb'⟩ := of_update_eq hb₀ (by simp)
    exact hba ((hE.inside (a := b) (by simp [hb'])).symm.trans ha)
  by_cases hxy : x = y
  swap
  · refine h.frame ?_ rfl rfl ?_ fun b l hb => absurd hb (hnoadd b l) <;>
      simp [Kernel.add, hxy]
  subst hxy
  obtain ⟨hcount, hnonneg, hwake, hadding⟩ := h
  have hval := toInt_add_one (v := (s.sems x).value) (by rw [hcount]; exact hfit rfl)
  refine ⟨?_, ?_, fun hq => ?_, fun b l hb => absurd hb (hnoadd b l)⟩
  · simp only [Kernel.units, Kernel.add, setSem, Kernel.goto, update_self,
      hval] at hcount ⊢
    push_cast
    omega
  · simp only [Kernel.add, setSem, Kernel.goto, update_self, hval]
    omega
  · simp only [Kernel.add, setSem, Kernel.goto, update_self, hval] at hq ⊢
    exact (hadding a oldLevel hp).resolve_left hq

theorem Counting.step {s s' : Kernel} (h : Counting initialValue x s) (hE : Exclusion s)
    (hst : KernelStep s e s') (hfit : e.Fits initialValue x s) : Counting initialValue x s' := by
  have hother : ¬ e.OnSem → Counting initialValue x s' := by
    intro he
    have hs := hst.sameSems he
    exact h.frame (by rw [hs.sems]) (by rw [hs.woken]) (by rw [hs.completedP])
      (by rw [hs.completedV]) fun a l => hs.vAdd a x l
  obtain ⟨hen, rfl⟩ := hst
  cases e with
  | test t y oldLevel woken => exact h.test hE hen.1 hen.2
  | remove a y oldLevel => exact h.remove hE hen.1 hen.2
  | add a y oldLevel => exact h.add hE hen.1 hen.2 hfit
  | _ => exact hother (by simp)

/-! ### The interrupt level -/

/-- The level that a call will restore. -/
@[simp] def Place.saved : Place → Option IntStatus
  | .pTest _ oldLevel _ | .pSleep _ oldLevel | .pAsleep _ oldLevel | .pDone _ oldLevel => oldLevel
  | .vRemove _ oldLevel | .vAdd _ oldLevel | .vDone _ oldLevel => oldLevel
  -- the last `SetLevel` has enabled interrupts
  | .tick true => some .IntOn
  | .yielded oldLevel true => oldLevel
  | _ => none

/-- In a call of `P` or `V`. -/
@[simp] def Place.InCall (p : Place) : Prop := p.saved ≠ none

/-- Every call remembers the level that it found. -/
def Levels (s : Kernel) : Prop := ∀ a l, (s.place a).saved = some l → s.found a = l

/-- What the calls remember stays true, and a call that ends leaves the level that it found. -/
structure Restores (s s' : Kernel) : Prop where
  levels : Levels s'
  returns : ∀ a, (s.place a).InCall → s'.place a = .outside → s'.level = s.found a

section Levels

variable {s s' : Kernel} (h : Levels s) {b : Option ℕ} {p : Place}
include h

theorem Levels.move (hplace : s'.place = update s.place b p)
    (hfound : s'.found = s.found) (hp : ∀ l, p.saved = some l → s.found b = l)
    (hout : (s.place b).InCall → p = .outside → s'.level = s.found b) : Restores s s' := by
  constructor
  · intro a l ha
    rw [hfound]
    rw [hplace] at ha
    by_cases hab : a = b
    · subst hab
      rw [update_self] at ha
      exact hp l ha
    · rw [update_of_ne hab] at ha
      exact h a l ha
  · intro a hcall ha
    rw [hplace] at ha
    rcases update_cases ha with ⟨rfl, ho⟩ | ⟨-, ho⟩
    · exact hout hcall ho.symm
    · simp [ho] at hcall

/-- What a call remembers passes from place to place. -/
theorem Levels.keep (hplace : s'.place = update s.place b p)
    (hfound : s'.found = s.found)
    (hp : (p.saved = (s.place b).saved ∨ p.saved = none) ∧ p ≠ .outside) : Restores s s' := by
  refine h.move hplace hfound (fun l hl => ?_) fun _ ho => absurd ho hp.2
  rcases hp.1 with hp | hp
  · exact h b l (hp ▸ hl)
  · rw [hp] at hl
    cases hl

theorem Levels.enter {p : IntStatus → Place} (hp : ∀ l, (p l).saved = some l) :
    Restores s (s.enter b p) := by
  constructor
  · intro a l ha
    simp only [Kernel.enter, Kernel.goto] at ha ⊢
    by_cases hab : a = b
    · subst hab
      rw [update_self, hp] at ha
      rw [update_self]
      exact Option.some.inj ha
    · rw [update_of_ne hab] at ha
      rw [update_of_ne hab]
      exact h a l ha
  · intro a hcall ha
    rcases update_cases ha with ⟨-, ho⟩ | ⟨-, ho⟩
    · have hl := hp s.level
      rw [← ho] at hl
      cases hl
    · simp [ho] at hcall

/-- `SetLevel` restores what the call remembers, if it is the end of one. -/
theorem Levels.setLevel {now : IntStatus} {inCall : Bool} (hb : inCall = true → s.found b = now)
    (hcall : (s.place b).InCall → inCall = true) : Restores s (s.setLevel b now inCall) := by
  refine h.move rfl rfl (fun l hl => ?_) fun hc _ => (hb (hcall hc)).symm
  split_ifs at hl with hon
  · cases inCall with
    | false => cases hl
    | true =>
      cases hl
      exact (hb rfl).trans hon.1
  · cases hl

theorem Levels.run {n : ℕ} (hn : (s.place (some n)).Resumable) : Restores s (Kernel.run n s) := by
  have h₀ : Levels { s with currentThread := n } := h
  have hfound := h (some n)
  cases hcase : s.place (some n) with
  | pAsleep x oldLevel =>
    simp only [Kernel.run, hcase]
    exact h.keep rfl rfl (by simp [hcase])
  | yielded oldLevel inCall =>
    simp only [Kernel.run, hcase]
    refine { h₀.setLevel (fun hc => ?_) (fun hc => ?_) with }
    · subst hc
      exact hfound oldLevel (by rw [hcase]; rfl)
    · cases inCall with
      | false => simp [hcase] at hc
      | true => rfl
  | blocked =>
    simp only [Kernel.run, hcase]
    exact h.move rfl rfl (by simp) (by simp [hcase])
  | _ => simp [hcase] at hn

/-- A call that is ticking found interrupts enabled, and they are. -/
theorem Levels.ticking (hE : Exclusion s) {inCall : Bool} (ha : s.running = some t)
    (hp : s.place (some t) = .tick inCall) (hc : inCall = true) : s.found (some t) = s.level := by
  subst hc
  obtain ⟨hi, rfl⟩ := running_some ha
  have hon : s.level = .IntOn := by simpa [hp] using hE.thread hi
  rw [hon]
  exact h _ _ (by rw [hp]; rfl)

theorem Levels.yield (hE : Exclusion s) {inCall : Bool}
    (hp : s.place (some t) = .outside ∧ inCall = false ∨ s.place (some t) = .tick inCall)
    (hfound : inCall = true → s.found (some t) = s.level) : Restores s (s.yield t inCall) := by
  -- only a call that was ticking can be at stake for `t` itself
  have ht : (s.place (some t)).InCall → inCall = true := by
    rcases hp with ⟨hp, -⟩ | hp <;> cases inCall <;> simp [hp]
  cases hrl : s.readyList with
  | nil =>
    rw [yield_nil hrl]
    have h₀ : Levels { s with level := .IntOff } := h
    exact { h₀.setLevel hfound ht with }
  | cons n rest =>
    rw [yield_cons hrl]
    have hn := hE.ready n (by rw [hrl]; exact List.mem_cons_self)
    have hnt : n ≠ t := by
      rintro rfl
      rcases hp with ⟨hp, -⟩ | hp <;> simp [hp] at hn
    -- the thread that is switched out remembers the level
    have h₁ : Restores s (({ s with level := .IntOff, readyList := rest }.readyToRun t).goto
        (some t) (.yielded s.level inCall)) := by
      refine h.move rfl rfl (fun l hl => ?_) (by simp)
      cases inCall with
      | false => cases hl
      | true =>
        cases hl
        exact hfound rfl
    have h₂ := h₁.levels.run (n := n) (by simpa [hnt] using hn)
    refine ⟨h₂.levels, fun a hcall hout => h₂.returns a ?_ hout⟩
    by_cases hat : a = some t
    · subst hat
      simp [ht hcall]
    · simpa [hat] using hcall

/-- Nobody moves. -/
theorem Levels.stay (hplace : s'.place = s.place) (hfound : s'.found = s.found) :
    Restores s s' := by
  refine ⟨fun a => ?_, fun a hcall hout => ?_⟩
  · rw [hplace, hfound]
    exact h a
  · rw [hplace] at hout
    simp [hout] at hcall

/-- **`P` and `V` leave the interrupt level as they found it.** -/
theorem Levels.step (hE : Exclusion s) (hst : KernelStep s e s') : Restores s s' := by
  obtain ⟨hen, rfl⟩ := hst
  cases e with
  | callP t x => exact h.enter (p := fun oldLevel => .pTest x oldLevel false) fun _ => rfl
  | callV a x => exact h.enter (p := fun oldLevel => .vRemove x oldLevel) fun _ => rfl
  | test t x oldLevel woken =>
    have hfound : (s.retest t x woken).found = s.found := by cases woken <;> rfl
    simp only [Event.next, Kernel.test]
    split_ifs
    · exact h.keep (congrArg (update · _ _) retest_place) hfound (by simp [hen.2])
    · exact h.keep (congrArg (update · _ _) retest_place) hfound (by simp [hen.2])
  | sleep t x oldLevel | add a x oldLevel => exact h.keep rfl rfl (by simp [hen.2])
  | dispatch t n rest =>
    have h₀ : Levels { s with readyList := rest } := h
    exact { h₀.run (hE.ready n (by rw [hen.2.2]; exact List.mem_cons_self)) with }
  | remove a x oldLevel =>
    simp only [Event.next, Kernel.remove]
    split
    · exact h.keep rfl rfl (by simp [hen.2])
    · exact h.keep rfl rfl (by simp [hen.2])
  | restoreP t x oldLevel | restoreV a x oldLevel =>
    exact h.setLevel (fun _ => h _ _ (by rw [hen.2]; rfl)) (by simp)
  | tickEnd t inCall =>
    refine h.move rfl rfl (by simp) fun hcall _ => (h.ticking hE hen.1 hen.2 ?_).symm
    cases inCall with
    | false => simp [hen.2] at hcall
    | true => rfl
  | tickYield t inCall => exact h.yield hE (Or.inr hen.2) (h.ticking hE hen.1 hen.2)
  | yield t => exact h.yield hE (Or.inl ⟨hen.2, rfl⟩) (by simp)
  | setLevel t now => exact h.setLevel (by simp) (by simp [hen.2])
  | instruction t => exact h.keep rfl rfl (by simp)
  | block t => exact h.keep rfl rfl (by simp)
  | interrupt t | handlerEnd | wake a u => exact h.stay rfl rfl
  | fork t u =>
    exact h.keep (b := some u) (p := .yielded .IntOn false) rfl rfl (by simp)

end Levels

theorem KernelReach.levels {s : Kernel} (h : KernelReach initialValue s) : Levels s := by
  refine Reach.invariant_of (I := Levels) (J := Exclusion)
    (fun s hs => (show KernelReach initialValue s from hs).both.1) ?_ ?_ h
  · rintro s ⟨level, rfl⟩ a l hl
    simp only at hl
    split_ifs at hl <;> cases hl
  · exact fun s e s' hE hL hst => (hL.step hE hst).levels

theorem FitReach.reach {s : Kernel} (h : FitReach initialValue x s) : KernelReach initialValue s :=
  Reach.mono (fun _ _ _ hst => hst.1) h

theorem FitReach.counting {s : Kernel} (h : FitReach initialValue x s)
    (hinit : 0 ≤ (initialValue x).toInt) : Counting initialValue x s := by
  refine Reach.invariant_of (I := Counting initialValue x) (J := Exclusion)
    (fun s hs => (show FitReach initialValue x s from hs).reach.both.1) ?_ ?_ h
  · rintro s ⟨level, rfl⟩
    refine ⟨by simp [Kernel.units], hinit, by simp, fun a l hl => ?_⟩
    simp only at hl
    split_ifs at hl
  · exact fun s e s' hE hC hst => hC.step hE hst.1 hst.2

/-- **Semaphores count, and lose no wake-up**, as long as there are no more units than an `int` can
count.  The first part is about a semaphore that starts at 0 or above, in every state of every such
run; `woken x` are the threads that `V` has moved to the ready list and that have not yet tested the
value again.  The second is about every step that ends a call of `P` or `V`. -/
theorem semaphore_counting (hinit : 0 ≤ (initialValue x).toInt) {s : Kernel}
    (h : FitReach initialValue x s) :
    ((s.sems x).value.toInt = (initialValue x).toInt + s.completedV x - s.completedP x ∧
      0 ≤ (s.sems x).value.toInt ∧ (s.sems x).queue.Nodup ∧
      ((s.sems x).queue ≠ [] → (s.sems x).value.toInt ≤ (s.woken x).length) ∧ (s.woken x).Nodup ∧
      ∀ t, t ∈ s.woken x ↔ (∃ oldLevel, s.place (some t) = .pAsleep x oldLevel) ∧
        t ∈ s.readyList ∨ ∃ oldLevel, s.place (some t) = .pTest x oldLevel true) ∧
    (∀ e s' a, KernelStep s e s' → (s.place a).InCall → s'.place a = .outside →
      s'.level = s.found a) := by
  obtain ⟨hE, hQ⟩ := h.reach.both
  obtain ⟨hcount, hnonneg, hwake, -⟩ := h.counting hinit
  exact ⟨⟨hcount, hnonneg, hQ.nodup x, hwake, hQ.wokenNodup x, hQ.woken x⟩,
    fun e s' a hst hcall hout => (h.reach.levels.step hE hst).returns a hcall hout⟩

instance Place.decidableAsleep (p : Place) : Decidable p.Asleep := by
  cases p <;> unfold Place.Asleep <;> infer_instance

instance Event.decidableEnabled (s : Kernel) (e : Event) : Decidable (e.enabled s) := by
  cases e <;> unfold Event.enabled <;> infer_instance

/-- Take a step if it can be taken. -/
def Event.exec (s : Kernel) (e : Event) : Option Kernel :=
  if e.enabled s then some (e.next s) else none

theorem Event.exec_step {s s' : Kernel} (h : e.exec s = some s') : KernelStep s e s' := by
  unfold Event.exec at h
  split_ifs at h with hen
  exact ⟨hen, (Option.some.inj h).symm⟩

/-- Threads 1 and 2 wait for a unit, and the main thread calls `V` once. -/
def twoWaiters : List Event :=
  [.fork 0 1, .fork 0 2, .yield 0,
    .tickEnd 1 false, .callP 1 0, .test 1 0 .IntOn false, .sleep 1 0 .IntOn, .dispatch 1 2 [0],
    .tickEnd 2 false, .callP 2 0, .test 2 0 .IntOn false, .sleep 2 0 .IntOn, .dispatch 2 0 [],
    .callV (some 0) 0, .remove (some 0) 0 .IntOff, .add (some 0) 0 .IntOff]

/-- The state in which `twoWaiters` starts. -/
def allZero : Kernel where
  level := .IntOff
  inHandler := false
  currentThread := 0
  readyList := []
  sems _ := ⟨0, []⟩
  place a := if a = none ∨ a = some 0 then .outside else .unborn
  woken _ := []
  completedP _ := 0
  completedV _ := 0
  found _ := .IntOff

instance Event.decidableFits (initialValue : ℕ → BitVec 32) (x : ℕ) (s : Kernel) (e : Event) :
    Decidable (e.Fits initialValue x s) := by
  cases e <;> unfold Event.Fits <;> infer_instance

/-- Take a step if it can be taken and the units fit. -/
def Event.execFit (initialValue : ℕ → BitVec 32) (x : ℕ) (s : Kernel) (e : Event) : Option Kernel :=
  if e.Fits initialValue x s then e.exec s else none

theorem Event.execFit_step {s s' : Kernel} (h : e.execFit initialValue x s = some s') :
    KernelStep s e s' ∧ e.Fits initialValue x s := by
  unfold Event.execFit at h
  split_ifs at h with hfit
  exact ⟨Event.exec_step h, hfit⟩

theorem semaphore_counting_twoWaiters :
    ∃ s, FitReach (fun _ => 0) 0 s ∧ (s.sems 0).queue = [2] ∧ (s.sems 0).value = 1 ∧
      1 ≤ (s.woken 0).length := by
  obtain ⟨s, hreach, hq, hv⟩ : ∃ s, FitReach (fun _ => 0) 0 s ∧ (s.sems 0).queue = [2] ∧
      (s.sems 0).value = 1 :=
    Reach.exists_run (fun _ _ _ => Event.execFit_step)
      (.init (⟨.IntOff, rfl⟩ : KernelInit (fun _ => 0) allZero)) twoWaiters (by decide +kernel)
  obtain ⟨⟨-, -, -, hwake, -⟩, -⟩ := semaphore_counting (by decide) hreach
  have hle := hwake (by rw [hq]; simp)
  rw [hv, show (1 : BitVec 32).toInt = 1 from rfl] at hle
  exact ⟨s, hreach, hq, hv, by exact_mod_cast hle⟩

/-- A semaphore made with `INT_MAX`: after one `V` its value is negative, and not its count. -/
theorem semaphore_overflows :
    ∃ s, KernelReach (fun _ => 2147483647) s ∧ 0 ≤ (2147483647#32).toInt ∧ s.completedV 0 = 1 ∧
      s.completedP 0 = 0 ∧ (s.sems 0).value.toInt = -2147483648 :=
  Reach.exists_run (fun _ _ _ => Event.exec_step)
    (.init (⟨.IntOff, rfl⟩ : KernelInit (fun _ => 2147483647) _))
    [.callV (some 0) 0, .remove (some 0) 0 .IntOff, .add (some 0) 0 .IntOff] (by decide +kernel)

end Nachos
