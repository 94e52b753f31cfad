import Mathlib.Tactic.Common

/-!
# Runs of a transition system

A system is a set of initial states and a labelled step relation.  `Reach init step s` says that
a finite run leads from an initial state to `s`; `Reach.invariant` is the induction every safety
result goes through, and `Reach.invariant_of` is its form relative to an invariant that is
already known.  `Reach.simulation` carries a run over to another system that does at each step what
this one does, or nothing.  `Reach.foldlM` runs a list of actions with a function that performs
steps, and `Reach.exists_run` gives the state at its end when what is to hold there can be decided.

`Run step s l t` also says which labels the steps from `s` to `t` carry.  `Run.simulation` finds the
same labels in another system, and `Run.project` those of them that another system has.
-/

namespace Transition

variable {σ α : Type*}

/-- The states that a run reaches. -/
inductive Reach (init : σ → Prop) (step : σ → α → σ → Prop) : σ → Prop
  | init {s : σ} : init s → Reach init step s
  | step {s t : σ} (a : α) : Reach init step s → step s a t → Reach init step t

variable {init : σ → Prop} {step : σ → α → σ → Prop}

/-- What holds initially and is kept by every step holds in every state of every run. -/
theorem Reach.invariant {I : σ → Prop} (h0 : ∀ s, init s → I s)
    (hs : ∀ s a t, I s → step s a t → I t) {s : σ} (h : Reach init step s) : I s := by
  induction h with
  | init hi => exact h0 _ hi
  | step a _ hst ih => exact hs _ a _ ih hst

/-- Invariance relative to an invariant `J` of the same system. -/
theorem Reach.invariant_of {I J : σ → Prop} (hJ : ∀ s, Reach init step s → J s)
    (h0 : ∀ s, init s → I s) (hs : ∀ s a t, J s → I s → step s a t → I t) {s : σ}
    (h : Reach init step s) : I s := by
  induction h with
  | init hi => exact h0 _ hi
  | step a hr hst ih => exact hs _ a _ (hJ _ hr) ih hst

/-- The runs of a system with fewer steps. -/
theorem Reach.mono {step' : σ → α → σ → Prop} (hs : ∀ s a t, step s a t → step' s a t) {s : σ}
    (h : Reach init step s) : Reach init step' s :=
  h.invariant (fun _ => .init) fun s a t hr hst => .step a hr (hs s a t hst)

/-- Seen through `f`, every step is one of another system, or nothing happens. -/
theorem Reach.simulation {τ β : Type*} {init' : τ → Prop} {step' : τ → β → τ → Prop} (f : σ → τ)
    (h0 : ∀ s, init s → init' (f s))
    (hs : ∀ s a t, Reach init step s → step s a t → f t = f s ∨ ∃ b, step' (f s) b (f t))
    {s : σ} (h : Reach init step s) : Reach init' step' (f s) := by
  induction h with
  | init hi => exact .init (h0 _ hi)
  | step a hr hst ih =>
    rcases hs _ a _ hr hst with heq | ⟨b, hb⟩
    · rw [heq]
      exact ih
    · exact .step b ih hb

/-- A list of actions, performed by a function all of whose results are steps. -/
theorem Reach.foldlM {f : σ → α → Option σ} (hf : ∀ s a t, f s a = some t → step s a t)
    {as : List α} {s t : σ} (h : Reach init step s) (hr : as.foldlM f s = some t) :
    Reach init step t := by
  induction as generalizing s with
  | nil =>
    cases hr
    exact h
  | cons a as ih =>
    rw [List.foldlM_cons] at hr
    obtain ⟨s₁, h₁, hr⟩ := Option.bind_eq_some_iff.1 hr
    exact ih (.step a h (hf s a s₁ h₁)) hr

theorem Reach.exists_run {f : σ → α → Option σ} (hf : ∀ s a t, f s a = some t → step s a t)
    {s : σ} {P : σ → Prop} [DecidablePred P] (h : Reach init step s) (as : List α)
    (hr : (as.foldlM f s).any (fun t => decide (P t)) = true) : ∃ t, Reach init step t ∧ P t := by
  cases hrun : as.foldlM f s with
  | none => simp [hrun] at hr
  | some t =>
    rw [hrun] at hr
    exact ⟨t, h.foldlM hf hrun, of_decide_eq_true hr⟩

/-! ### Runs with their labels -/

/-- Steps with these labels lead from one state to the other. -/
inductive Run (step : σ → α → σ → Prop) : σ → List α → σ → Prop
  | nil (s : σ) : Run step s [] s
  | cons {s t u : σ} {a : α} {l : List α} : step s a t → Run step t l u → Run step s (a :: l) u

/-- A system whose steps another one can follow shows no other labels. -/
theorem Run.simulation {τ : Type*} {step' : τ → α → τ → Prop} {R : σ → τ → Prop}
    (hs : ∀ s t a s', R s t → step s a s' → ∃ t', step' t a t' ∧ R s' t') {s s' : σ} {l : List α}
    (h : Run step s l s') {t : τ} (h0 : R s t) : ∃ t', Run step' t l t' ∧ R s' t' := by
  induction h generalizing t with
  | nil s => exact ⟨t, .nil t, h0⟩
  | cons hst _ ih =>
    obtain ⟨t₁, hst', h₁⟩ := hs _ _ _ _ h0 hst
    obtain ⟨t₂, hrun, h₂⟩ := ih h₁
    exact ⟨t₂, .cons hst' hrun, h₂⟩

/-- Seen through `f`, a step with a label that `g` keeps is one of another system, and the others
change nothing. -/
theorem Run.project {τ β : Type*} {step' : τ → β → τ → Prop} (f : σ → τ) (g : α → Option β)
    {I : σ → Prop} (hI : ∀ s a t, I s → step s a t → I t)
    (hsome : ∀ s a t b, I s → step s a t → g a = some b → step' (f s) b (f t))
    (hnone : ∀ s a t, I s → step s a t → g a = none → f t = f s)
    {s t : σ} {l : List α} (h : Run step s l t) (h0 : I s) :
    Run step' (f s) (l.filterMap g) (f t) := by
  induction h with
  | nil s => exact .nil (f s)
  | @cons s t u a l hst _ ih =>
    have hrest := ih (hI s a t h0 hst)
    cases hg : g a with
    | none =>
      rw [List.filterMap_cons_none hg, ← hnone s a t h0 hst hg]
      exact hrest
    | some b =>
      rw [List.filterMap_cons_some hg]
      exact .cons (hsome s a t b h0 hst hg) hrest

theorem Run.exists_run {f : σ → α → Option σ} (hf : ∀ s a t, f s a = some t → step s a t) {s : σ}
    {P : σ → Prop} [DecidablePred P] (as : List α)
    (hr : (as.foldlM f s).any (fun t => decide (P t)) = true) : ∃ t, Run step s as t ∧ P t := by
  induction as generalizing s with
  | nil => exact ⟨s, .nil s, of_decide_eq_true hr⟩
  | cons a as ih =>
    cases ha : f s a with
    | none => simp [List.foldlM_cons, ha] at hr
    | some s₁ =>
      obtain ⟨t, hrun, ht⟩ := ih (s := s₁) (by simpa [List.foldlM_cons, ha] using hr)
      exact ⟨t, .cons (hf s a s₁ ha) hrun, ht⟩

/-! ### Steps with a guard -/

section guard

variable (enabled : σ → α → Prop) [∀ s a, Decidable (enabled s a)] (next : σ → α → σ)

/-- Take a step, if it can be taken. -/
def exec (s : σ) (a : α) : Option σ := if enabled s a then some (next s a) else none

theorem exec_step (s : σ) (a : α) (t : σ) (h : exec enabled next s a = some t) :
    enabled s a ∧ t = next s a := by
  unfold exec at h
  split_ifs at h with hen
  exact ⟨hen, (Option.some.inj h).symm⟩

end guard

end Transition
