import Mathlib.Tactic.Common

/-!
# One token

A semaphore with initial value 1 that guards a critical section is a token: it lies with the
semaphore, whose value is then 1, or exactly one owner has it and the value is 0.  `One v I` says so
for the value `v` and the set `I` of owners.  An owner need not be a thread: a token that nobody
will give back is one with an owner that does nothing.  The value is a machine word.
-/

namespace Token

variable {α : Type*} {n : ℕ} {v : BitVec n} {I J : α → Prop} {t u : α}

/-- The token is with the semaphore, or with one owner. -/
def One (v : BitVec n) (I : α → Prop) : Prop :=
  (v = 1 ∧ ∀ t, ¬ I t) ∨ (v = 0 ∧ ∃ t, I t ∧ ∀ u, I u → u = t)

theorem One.congr (h : One v I) (hIJ : ∀ t, J t ↔ I t) : One v J := by
  unfold One
  simp only [hIJ]
  exact h

theorem One.unique (h : One v I) (ht : I t) (hu : I u) : t = u := by
  rcases h with ⟨-, hnone⟩ | ⟨-, w, -, hw⟩
  · exact absurd ht (hnone t)
  · rw [hw t ht, hw u hu]

theorem One.zero_of (h : One v I) (ht : I t) : v = 0 := by
  rcases h with ⟨-, hnone⟩ | ⟨hv, -⟩
  · exact absurd ht (hnone t)
  · exact hv

theorem One.none_of (h : One v I) (hv : v ≠ 0) : v = 1 ∧ ∀ t, ¬ I t :=
  h.resolve_right fun h0 => hv h0.1

/-- `P` lets `t` through. -/
theorem One.take (h : One v I) (hv : v ≠ 0) (ht : J t) (hJ : ∀ u, u ≠ t → J u → I u) :
    One (v - 1) J := by
  obtain ⟨hv1, hnone⟩ := h.none_of hv
  refine Or.inr ⟨by rw [hv1]; exact BitVec.sub_self 1, t, ht, fun u hu => ?_⟩
  by_contra hut
  exact hnone u (hJ u hut hu)

/-- `t` calls `V`. -/
theorem One.give (h : One v I) (ht : I t) (hJt : ¬ J t) (hJ : ∀ u, u ≠ t → J u → I u) :
    One (v + 1) J := by
  have hv := h.zero_of ht
  refine Or.inl ⟨by rw [hv]; exact BitVec.zero_add 1, fun u hu => ?_⟩
  by_cases hut : u = t
  · subst hut
    exact hJt hu
  · exact hut (h.unique (hJ u hut hu) ht)

/-- The token goes from `t` to `u`. -/
theorem One.pass (h : One v I) (ht : I t) (hu : J u) (hJt : J t → t = u)
    (hJ : ∀ w, w ≠ t → w ≠ u → J w → I w) : One v J := by
  refine Or.inr ⟨h.zero_of ht, u, hu, fun w hw => ?_⟩
  by_contra hwu
  by_cases hwt : w = t
  · subst hwt
    exact hwu (hJt hw)
  · exact hwt (h.unique (hJ w hwt hwu hw) ht)

end Token
