import Mathlib.Tactic
import Mathlib.Data.Fin.Basic

/-!
# The clock of the second-chance algorithm

A hand goes round `n` places that carry a use bit.  A place whose bit is set loses the bit and is
passed over; the first place whose bit is clear is the victim, and the hand stops just after it.

* `next`, `ahead hand k`: the place after a place, and the place `k` steps ahead of the hand;
* `sweep`: the loop, with the number of turns it may take;
* `victim`: the place it selects, said without the loop: the first clear place in cyclic order
  from the hand, or the hand itself when every bit is set;
* `sweep_eq`: `n + 1` turns are enough, and the loop selects `victim`, clearing the bits of the
  places it passed.
-/

namespace Clock

open Function

variable {n : ℕ}

/-- The place after `i`, in cyclic order. -/
def next (i : Fin n) : Fin n := ⟨(i.val + 1) % n, Nat.mod_lt _ i.pos⟩

/-- The place `k` steps ahead of the hand. -/
def ahead (hand : Fin n) (k : ℕ) : Fin n := ⟨(hand.val + k) % n, Nat.mod_lt _ hand.pos⟩

@[simp] theorem ahead_zero (hand : Fin n) : ahead hand 0 = hand := by
  apply Fin.ext
  simp [ahead, Nat.mod_eq_of_lt hand.isLt]

theorem ahead_next (hand : Fin n) (k : ℕ) : ahead (next hand) k = ahead hand (k + 1) := by
  apply Fin.ext
  simp [ahead, next, Nat.add_assoc, Nat.add_comm 1 k]

theorem next_ahead (hand : Fin n) (k : ℕ) : next (ahead hand k) = ahead hand (k + 1) := by
  apply Fin.ext
  simp [ahead, next, Nat.add_assoc]

@[simp] theorem ahead_self (hand : Fin n) : ahead hand n = hand := by
  apply Fin.ext
  simp [ahead, Nat.mod_eq_of_lt hand.isLt]

/-- Fewer than `n` steps ahead, different distances are different places. -/
theorem ahead_injOn (hand : Fin n) {j k : ℕ} (hj : j < n) (hk : k < n)
    (h : ahead hand j = ahead hand k) : j = k := by
  have hmod : hand.val + j ≡ hand.val + k [MOD n] := congrArg Fin.val h
  have := Nat.ModEq.add_left_cancel' hand.val hmod
  rwa [Nat.ModEq, Nat.mod_eq_of_lt hj, Nat.mod_eq_of_lt hk] at this

/-- Every place lies ahead of the hand. -/
theorem exists_ahead (hand i : Fin n) : ∃ k < n, ahead hand k = i := by
  have hh := hand.isLt
  have hi := i.isLt
  rcases Nat.lt_or_ge i hand with hlt | hge
  · refine ⟨i + n - hand, by omega, Fin.ext ?_⟩
    change (hand.val + (i + n - hand)) % n = i
    rw [show hand.val + (i + n - hand) = i + n by omega, Nat.add_mod_right, Nat.mod_eq_of_lt hi]
  · refine ⟨i - hand, by omega, Fin.ext ?_⟩
    change (hand.val + (i - hand)) % n = i
    rw [show hand.val + (i - hand.val) = i by omega, Nat.mod_eq_of_lt hi]

/-- The bits after the hand has passed over the next `k` places. -/
def passed (use : Fin n → Bool) (hand : Fin n) (k : ℕ) : Fin n → Bool :=
  fun i => use i && !decide (∃ j < k, ahead hand j = i)

@[simp] theorem passed_zero (use : Fin n → Bool) (hand : Fin n) : passed use hand 0 = use := by
  funext i
  simp [passed]

theorem passed_next (use : Fin n → Bool) (hand : Fin n) (k : ℕ) :
    passed (update use hand false) (next hand) k = passed use hand (k + 1) := by
  funext i
  by_cases hi : i = hand
  · subst hi
    have : ∃ j < k + 1, ahead i j = i := ⟨0, by omega, ahead_zero i⟩
    simp only [passed, update_self, Bool.false_and, decide_eq_true this, Bool.not_true,
      Bool.and_false]
  · have : (∃ j < k, ahead (next hand) j = i) ↔ ∃ j < k + 1, ahead hand j = i := by
      constructor
      · rintro ⟨j, hj, h⟩
        exact ⟨j + 1, by omega, by rw [← ahead_next]; exact h⟩
      · rintro ⟨j, hj, h⟩
        cases j with
        | zero => exact absurd (by simpa using h.symm) hi
        | succ j => exact ⟨j, by omega, by rw [ahead_next]; exact h⟩
    simp only [passed, update_of_ne hi, this]

theorem passed_succ (use : Fin n → Bool) (hand : Fin n) (k : ℕ) (i : Fin n) :
    passed use hand (k + 1) i = if i = ahead hand k then false else passed use hand k i := by
  have hiff : (∃ j < k + 1, ahead hand j = i) ↔ i = ahead hand k ∨ ∃ j < k, ahead hand j = i := by
    rw [Nat.exists_lt_succ_right, or_comm, eq_comm]
  simp only [passed, hiff]
  by_cases hi : i = ahead hand k
  · simp [hi]
  · simp [hi]

/-- A place that the hand has not reached yet keeps its bit. -/
theorem passed_ahead (use : Fin n → Bool) (hand : Fin n) {k : ℕ} (hk : k < n) :
    passed use hand k (ahead hand k) = use (ahead hand k) := by
  have hnot : ¬ ∃ j < k, ahead hand j = ahead hand k := by
    rintro ⟨j, hj, h⟩
    have := ahead_injOn hand (by omega) hk h
    omega
  simp [passed, hnot]

/-- One turn of the loop per unit of fuel: the victim and the bits it leaves. -/
def sweep (use : Fin n → Bool) (hand : Fin n) : ℕ → Option (Fin n × (Fin n → Bool))
  | 0 => none
  | fuel + 1 =>
      if use hand then sweep (update use hand false) (next hand) fuel
      else some (hand, use)

/-- The number of places passed over before the victim: up to the first clear bit, all `n` when
every bit is set. -/
def skips (use : Fin n → Bool) (hand : Fin n) : ℕ :=
  ((List.range n).find? fun k => !use (ahead hand k)).getD n

/-- The place the loop selects. -/
def victim (use : Fin n → Bool) (hand : Fin n) : Fin n := ahead hand (skips use hand)

theorem skips_le (use : Fin n → Bool) (hand : Fin n) : skips use hand ≤ n := by
  unfold skips
  cases h : (List.range n).find? fun k => !use (ahead hand k) with
  | none => simp
  | some k => simpa using (List.mem_range.1 (List.mem_of_find?_eq_some h)).le

/-- Every place before the victim has its bit set. -/
theorem use_of_lt_skips {use : Fin n → Bool} {hand : Fin n} {k : ℕ} (hk : k < skips use hand) :
    use (ahead hand k) = true := by
  have hkn : k < n := lt_of_lt_of_le hk (skips_le use hand)
  unfold skips at hk
  cases h : (List.range n).find? fun k => !use (ahead hand k) with
  | none =>
    have := List.find?_eq_none.1 h k (List.mem_range.2 hkn)
    simpa using this
  | some m =>
    rw [h, Option.getD_some] at hk
    obtain ⟨-, as, bs, heq, hbefore⟩ := List.find?_eq_some_iff_append.1 h
    have hget : (List.range n)[as.length]? = some m := by rw [heq]; simp
    have hlen : as.length = m := by
      obtain ⟨hlt, hval⟩ := List.getElem?_eq_some_iff.1 hget
      simpa using hval
    have hmem : k ∈ as := by
      have : (List.range n)[k]? = some k := List.getElem?_range hkn
      rw [heq, List.getElem?_append_left (by omega)] at this
      exact List.mem_of_getElem? this
    simpa using hbefore k hmem

/-- The victim's bit is clear, unless every bit is set and the hand has gone round once. -/
theorem use_victim (use : Fin n → Bool) (hand : Fin n) :
    use (victim use hand) = false ∨ skips use hand = n := by
  unfold victim skips
  cases h : (List.range n).find? fun k => !use (ahead hand k) with
  | none => exact Or.inr rfl
  | some k => exact Or.inl (by simpa using List.find?_some h)

/-- The victim is the first place with a clear bit; if there is none it is the hand. -/
theorem skips_cases (use : Fin n → Bool) (hand : Fin n) :
    (skips use hand < n ∧ use (victim use hand) = false) ∨
      (skips use hand = n ∧ victim use hand = hand ∧ ∀ i, use i = true) := by
  rcases Nat.lt_or_eq_of_le (skips_le use hand) with hlt | heq
  · exact Or.inl ⟨hlt, (use_victim use hand).resolve_right hlt.ne⟩
  · refine Or.inr ⟨heq, by rw [victim, heq, ahead_self], fun i => ?_⟩
    obtain ⟨k, hk, rfl⟩ := exists_ahead hand i
    exact use_of_lt_skips (by rwa [heq])

/-- By the time the hand reaches the victim its bit is clear. -/
theorem passed_victim (use : Fin n → Bool) (hand : Fin n) :
    passed use hand (skips use hand) (victim use hand) = false := by
  rcases use_victim use hand with h | h
  · simp [passed, h]
  · -- every bit was set: the victim is the hand, whose bit went first
    have : ∃ j < skips use hand, ahead hand j = victim use hand :=
      ⟨0, by rw [h]; exact hand.pos, by simp [victim, h]⟩
    simp [passed, this]

/-- While the places ahead have their bits set the loop goes on past them. -/
theorem sweep_passed (use : Fin n → Bool) (hand : Fin n) (k fuel : ℕ) (hk : k ≤ n)
    (h : ∀ j < k, use (ahead hand j) = true) :
    sweep use hand (k + fuel) = sweep (passed use hand k) (ahead hand k) fuel := by
  induction k generalizing use hand with
  | zero => simp
  | succ k ih =>
    have h0 : use hand = true := by simpa using h 0 (by omega)
    have hrest : ∀ j < k, update use hand false (ahead (next hand) j) = true := by
      intro j hj
      rw [ahead_next]
      have hne : ahead hand (j + 1) ≠ hand := by
        intro he
        have := ahead_injOn hand (j := j + 1) (k := 0) (by omega) (by omega) (by simpa using he)
        omega
      rw [update_of_ne hne]
      exact h (j + 1) (by omega)
    rw [show k + 1 + fuel = (k + fuel) + 1 by omega, sweep, if_pos h0,
      ih _ _ (by omega) hrest, passed_next, ahead_next]

/-- **The loop ends within `n + 1` turns**, at the victim, and it has cleared exactly the bits
of the places it passed. -/
theorem sweep_eq (use : Fin n → Bool) (hand : Fin n) :
    sweep use hand (n + 1) =
      some (victim use hand, passed use hand (skips use hand)) := by
  have hle := skips_le use hand
  rw [show n + 1 = skips use hand + ((n - skips use hand) + 1) by omega,
    sweep_passed use hand _ _ hle fun j hj => use_of_lt_skips hj]
  show sweep _ (victim use hand) _ = _
  rw [sweep, if_neg (by simp [passed_victim])]

end Clock
