import Mathlib.Tactic.Common

/-!
# Effects of code that may fail

Code with a state and failures is `StateT σ (Except ε) α`.  `Effect R m` says that `R` relates the
states before and after every run of `m` that returns.  The rules follow the ways in which code is
put together; they say nothing about runs that fail.  `bind_run` and `foldlM_range_run` are for runs
that do return: a sequence goes on with what its first part returned, and a loop keeps its
invariant.  `exists_ok` takes a result that has been computed, and what was decided about it.
-/

namespace Fallible

universe u v

variable {σ α β : Type u} {ε : Type v}

/-- Every run that returns takes its state to a related one. -/
def Effect (R : σ → σ → Prop) (m : StateT σ (Except ε) α) : Prop :=
  ∀ s a s', m s = .ok (a, s') → R s s'

theorem toOption_eq_some {x : Except ε α} {a : α} : x.toOption = some a ↔ x = .ok a := by
  cases x <;> simp [Except.toOption]

/-- A result that has been computed. -/
theorem exists_ok (x : Except ε α) (P : α → Prop) [DecidablePred P]
    (h : x.toOption.any (fun a => decide (P a)) = true) : ∃ a, x = .ok a ∧ P a := by
  obtain ⟨a, ha, hP⟩ := (Option.any_eq_true _ _).1 h
  exact ⟨a, toOption_eq_some.1 ha, of_decide_eq_true hP⟩

theorem map_eq_ok {x : Except ε α} {f : α → β} {b : β} :
    x.map f = .ok b ↔ ∃ a, x = .ok a ∧ f a = b := by
  cases x <;> simp [Except.map]

theorem map_eq_error {x : Except ε α} {f : α → β} {e : ε} : x.map f = .error e ↔ x = .error e := by
  cases x <;> simp [Except.map]

theorem except_bind_eq_ok {x : Except ε α} {f : α → Except ε β} {b : β} :
    (x >>= f) = .ok b ↔ ∃ a, x = .ok a ∧ f a = .ok b := by
  cases x <;> simp [bind, Except.bind]

/-- A sequence returns when both of its parts do. -/
theorem bind_eq_ok {m : StateT σ (Except ε) α} {f : α → StateT σ (Except ε) β} {s s' : σ} {b : β} :
    (m >>= f) s = .ok (b, s') ↔ ∃ a t, m s = .ok (a, t) ∧ f a t = .ok (b, s') := by
  show (m s >>= fun p => f p.1 p.2) = _ ↔ _
  cases hm : m s with
  | error e => simp [bind, Except.bind]
  | ok p => simp [bind, Except.bind, Prod.ext_iff]

/-- A sequence goes on from where its first part returned. -/
theorem bind_run {m : StateT σ (Except ε) α} {f : α → StateT σ (Except ε) β} {s t : σ} {a : α}
    (h : m s = .ok (a, t)) : (m >>= f) s = f a t := by
  show (m s >>= fun p => f p.1 p.2) = _
  rw [h]
  rfl

/-- A sequence fails where its first part does. -/
theorem bind_error {m : StateT σ (Except ε) α} {f : α → StateT σ (Except ε) β} {s : σ} {e : ε}
    (h : m s = .error e) : (m >>= f) s = .error e := by
  show (m s >>= fun p => f p.1 p.2) = _
  rw [h]
  rfl

/-- A loop all of whose turns return and keep the invariant returns and has kept it. -/
theorem foldlM_range_run {f : α → ℕ → StateT σ (Except ε) α} {I : ℕ → α → σ → Prop} {n : ℕ} {a : α}
    {s : σ} (h0 : I 0 a s)
    (hf : ∀ i < n, ∀ a s, I i a s → ∃ a' s', f a i s = .ok (a', s') ∧ I (i + 1) a' s') :
    ∃ a' s', (List.range n).foldlM f a s = .ok (a', s') ∧ I n a' s' := by
  induction n with
  | zero => exact ⟨a, s, rfl, h0⟩
  | succ n ih =>
    obtain ⟨a₁, s₁, hrun, h₁⟩ := ih fun i hi => hf i (by omega)
    obtain ⟨a₂, s₂, hrun', h₂⟩ := hf n (by omega) a₁ s₁ h₁
    refine ⟨a₂, s₂, ?_, h₂⟩
    rw [List.range_succ, List.foldlM_append, bind_run hrun, List.foldlM_cons, bind_run hrun']
    rfl

/-- Two sequences are the same if their parts are, where they come to. -/
theorem bind_congr {m m' : StateT σ (Except ε) α} {f g : α → StateT σ (Except ε) β} {s : σ}
    (hm : m s = m' s) (h : ∀ a t, m' s = .ok (a, t) → f a t = g a t) :
    (m >>= f) s = (m' >>= g) s := by
  show (m s >>= fun p => f p.1 p.2) = (m' s >>= fun p => g p.1 p.2)
  rw [hm]
  cases hs : m' s with
  | error e => rfl
  | ok p => exact h p.1 p.2 hs

/-- Two loops are the same if their turns are. -/
theorem foldlM_range_congr {f g : α → ℕ → StateT σ (Except ε) α} {n : ℕ}
    (h : ∀ i < n, ∀ a s, f a i s = g a i s) (a : α) (s : σ) :
    (List.range n).foldlM f a s = (List.range n).foldlM g a s := by
  induction n with
  | zero => rfl
  | succ n ih =>
    rw [List.range_succ, List.foldlM_append, List.foldlM_append]
    refine bind_congr (ih fun i hi => h i (by omega)) fun a t _ => ?_
    rw [List.foldlM_cons, List.foldlM_cons]
    exact bind_congr (h n (by omega) a t) fun _ _ _ => rfl

namespace Effect

variable {R S T : σ → σ → Prop} {m : StateT σ (Except ε) α} {f : α → StateT σ (Except ε) β}

theorem throw (e : ε) : Effect R (throw e : StateT σ (Except ε) α) := by
  intro s a s' h
  cases h

theorem pure (hR : ∀ s, R s s) (a : α) : Effect R (pure a : StateT σ (Except ε) α) := by
  intro s b s' h
  cases h
  exact hR s

theorem get (hR : ∀ s, R s s) : Effect R (get : StateT σ (Except ε) σ) := by
  intro s a s' h
  cases h
  exact hR s

theorem modify {g : σ → σ} (hg : ∀ s, R s (g s)) :
    Effect R (modify g : StateT σ (Except ε) PUnit) := by
  intro s a s' h
  cases h
  exact hg s

/-- The effects of a sequence are those of its parts, one after the other. -/
theorem comp (hRS : ∀ s t u, R s t → S t u → T s u) (hm : Effect R m)
    (hf : ∀ a, Effect S (f a)) : Effect T (m >>= f) := by
  intro s b u h
  obtain ⟨a, t, h₁, h₂⟩ := bind_eq_ok.1 h
  exact hRS s t u (hm s a t h₁) (hf a t b u h₂)

theorem bind (hR : ∀ s t u, R s t → R t u → R s u) (hm : Effect R m)
    (hf : ∀ a, Effect R (f a)) : Effect R (m >>= f) :=
  comp hR hm hf

theorem mono (hRS : ∀ s t, R s t → S s t) (hm : Effect R m) : Effect S m :=
  fun s a s' h => hRS s s' (hm s a s' h)

end Effect

end Fallible
