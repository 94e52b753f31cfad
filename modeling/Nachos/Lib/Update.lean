import Mathlib.Logic.Function.Basic

/-!
# One point of a function changes

What a system records of its threads is a function, and a step changes it at the thread that takes
the step.  A property of the new value at some point that the written value does not have belongs to
another point (`of_update`); a property of the old value at some point that the overwritten value
did not have is still there (`update_of`); a function that maps the two values to the same one maps
the two functions to the same one (`map_update`).
-/

namespace Update

open Function

variable {α β : Type*} [DecidableEq α] {f : α → β} {a x : α} {b : β}

theorem of_update {P : β → Prop} (h : P (update f a b x)) (hb : ¬ P b) :
    x ≠ a ∧ P (f x) := by
  by_cases hx : x = a
  · subst hx
    rw [update_self] at h
    exact absurd h hb
  · rw [update_of_ne hx] at h
    exact ⟨hx, h⟩

theorem update_of {P : β → Prop} (h : P (f x)) (ha : ¬ P (f a)) : P (update f a b x) := by
  have hx : x ≠ a := by
    rintro rfl
    exact ha h
  rwa [update_of_ne hx]

/-- A value of the new function is the one that was written, or an old one elsewhere. -/
theorem update_cases {c : β} (h : update f a b x = c) :
    x = a ∧ c = b ∨ x ≠ a ∧ f x = c := by
  by_cases hx : x = a
  · subst hx
    rw [update_self] at h
    exact Or.inl ⟨rfl, h.symm⟩
  · rw [update_of_ne hx] at h
    exact Or.inr ⟨hx, h⟩

/-- The form of `of_update` for one value. -/
theorem of_update_eq {c : β} (h : update f a b x = c) (hb : b ≠ c) : x ≠ a ∧ f x = c :=
  of_update (P := (· = c)) h hb

/-- The form of `update_of` for one value. -/
theorem update_eq_of {c : β} (h : f x = c) (ha : f a ≠ c) : update f a b x = c :=
  update_of (P := (· = c)) h ha

/-- What does not see the difference between the written value and the overwritten one. -/
theorem map_update {γ : Type*} (g : β → γ) (h : g b = g (f a)) (x : α) :
    g (update f a b x) = g (f x) := by
  by_cases hx : x = a
  · rw [hx, update_self, h]
  · rw [update_of_ne hx]

end Update
