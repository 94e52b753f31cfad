import Nachos.Lib.Update
import Mathlib.Data.Set.Card

/-!
# A finite map in a table of slots

A slot is empty or holds a key with its value.  `Represents t m` says that the table `t` holds the
map `m`, no key twice.  A fresh key goes to any empty slot (`Represents.insert`), and a slot that is
emptied takes its key out of the map (`Represents.erase`).
-/

namespace SlotTable

open Function

variable {ι K V : Type*}

/-- The table holds the map. -/
structure Represents (t : ι → Option (K × V)) (m : K → Option V) : Prop where
  /-- No key is in two slots. -/
  distinct : ∀ {i j k v w}, t i = some (k, v) → t j = some (k, w) → i = j
  /-- The values are those in the slots. -/
  denotes : ∀ {k v}, m k = some v ↔ ∃ i, t i = some (k, v)

variable {t : ι → Option (K × V)} {m : K → Option V} {i : ι} {k : K} {v : V}

theorem represents_empty (h : ∀ i, t i = none) : Represents t fun _ => none where
  distinct {i} _ _ _ _ hi := by
    rw [h i] at hi
    cases hi
  denotes {k v} := by
    constructor
    · intro hk
      cases hk
    · rintro ⟨i, hi⟩
      rw [h i] at hi
      cases hi

theorem Represents.eq_none_iff (h : Represents t m) : m k = none ↔ ∀ i v, t i ≠ some (k, v) := by
  rw [Option.eq_none_iff_forall_ne_some]
  constructor
  · exact fun hk i v hi => hk v (h.denotes.2 ⟨i, hi⟩)
  · intro hk v hv
    obtain ⟨i, hi⟩ := h.denotes.1 hv
    exact hk i v hi

/-- There are as many keys as slots in use. -/
theorem Represents.ncard_keys (h : Represents t m) :
    {k | m k ≠ none}.ncard = {i | t i ≠ none}.ncard := by
  symm
  refine Set.ncard_congr (fun i hi => ((t i).get (Option.isSome_iff_ne_none.2 hi)).1) ?_ ?_ ?_
  · intro i hi
    obtain ⟨⟨k, v⟩, hkv⟩ := Option.ne_none_iff_exists'.1 hi
    have hk : m k ≠ none := by
      rw [h.denotes.2 ⟨i, hkv⟩]
      exact Option.some_ne_none v
    simpa [hkv] using hk
  · intro i j hi hj hij
    obtain ⟨⟨k, v⟩, hkv⟩ := Option.ne_none_iff_exists'.1 hi
    obtain ⟨⟨k', v'⟩, hkv'⟩ := Option.ne_none_iff_exists'.1 hj
    simp only [hkv, hkv', Option.get_some] at hij
    subst hij
    exact h.distinct hkv hkv'
  · intro k hk
    obtain ⟨v, hv⟩ := Option.ne_none_iff_exists'.1 hk
    obtain ⟨i, hi⟩ := h.denotes.1 hv
    refine ⟨i, ?_, ?_⟩
    · show t i ≠ none
      rw [hi]
      exact Option.some_ne_none _
    · simp [hi]

/-- A table has an empty slot iff it has more slots than keys. -/
theorem Represents.ncard_lt_iff [Finite ι] (h : Represents t m) :
    {k | m k ≠ none}.ncard < Nat.card ι ↔ ∃ i, t i = none := by
  rw [h.ncard_keys, ← Set.ncard_univ]
  constructor
  · intro hlt
    by_contra hfull
    push Not at hfull
    rw [Set.eq_univ_of_forall hfull] at hlt
    exact lt_irrefl _ hlt
  · rintro ⟨i, hi⟩
    refine Set.ncard_lt_ncard ?_
    rw [Set.ssubset_univ_iff]
    intro huniv
    have hmem : i ∈ {i | t i ≠ none} := huniv ▸ Set.mem_univ i
    exact hmem hi

variable [DecidableEq ι]

/-- A slot of the new table, other than that of the fresh key, is an old one with another key. -/
theorem Represents.slot_insert (h : Represents t m) (hk : m k = none) {j : ι} {k' : K} {v' : V}
    (hj : update t i (some (k, v)) j = some (k', v')) :
    j = i ∧ k' = k ∧ v' = v ∨ k' ≠ k ∧ t j = some (k', v') := by
  rcases Update.update_cases hj with ⟨hji, hnew⟩ | ⟨-, hold⟩
  · cases hnew
    exact Or.inl ⟨hji, rfl, rfl⟩
  · refine Or.inr ⟨?_, hold⟩
    rintro rfl
    exact h.eq_none_iff.1 hk j v' hold

/-- A fresh key goes to an empty slot. -/
theorem Represents.insert [DecidableEq K] (h : Represents t m) (hi : t i = none) (hk : m k = none) :
    Represents (update t i (some (k, v))) (update m k (some v)) where
  distinct {j j'} _ _ _ hj hj' := by
    rcases h.slot_insert hk hj with ⟨rfl, rfl, -⟩ | ⟨hne, hj⟩
    · rcases h.slot_insert hk hj' with ⟨rfl, -, -⟩ | ⟨hne, -⟩
      · rfl
      · exact absurd rfl hne
    · rcases h.slot_insert hk hj' with ⟨-, rfl, -⟩ | ⟨-, hj'⟩
      · exact absurd rfl hne
      · exact h.distinct hj hj'
  denotes {k' v'} := by
    constructor
    · intro hv
      by_cases hkk : k' = k
      · rw [hkk, update_self] at hv
        cases hv
        exact ⟨i, by rw [update_self, hkk]⟩
      · rw [update_of_ne hkk] at hv
        obtain ⟨j, hj⟩ := h.denotes.1 hv
        have hji : j ≠ i := by
          rintro rfl
          rw [hi] at hj
          cases hj
        exact ⟨j, by rw [update_of_ne hji, hj]⟩
    · rintro ⟨j, hj⟩
      rcases h.slot_insert hk hj with ⟨-, rfl, rfl⟩ | ⟨hne, hj⟩
      · exact update_self ..
      · rw [update_of_ne hne]
        exact h.denotes.2 ⟨j, hj⟩

/-- A slot of the table without the one of `k` is an old one, with another key. -/
theorem Represents.slot_erase (h : Represents t m) (hi : t i = some (k, v)) {j : ι} {k' : K}
    {v' : V} : update t i none j = some (k', v') ↔ k' ≠ k ∧ t j = some (k', v') := by
  by_cases hji : j = i
  · subst hji
    rw [update_self, hi]
    constructor
    · intro hj
      cases hj
    · rintro ⟨hne, hj⟩
      cases hj
      exact absurd rfl hne
  · rw [update_of_ne hji]
    constructor
    · intro hj
      refine ⟨?_, hj⟩
      rintro rfl
      exact hji (h.distinct hj hi)
    · exact And.right

/-- Emptying the slot of a key takes the key out of the map. -/
theorem Represents.erase [DecidableEq K] (h : Represents t m) (hi : t i = some (k, v)) :
    Represents (update t i none) (update m k none) where
  distinct hj hj' := h.distinct ((h.slot_erase hi).1 hj).2 ((h.slot_erase hi).1 hj').2
  denotes {k' v'} := by
    simp only [h.slot_erase hi, exists_and_left, ← h.denotes]
    by_cases hkk : k' = k
    · rw [hkk, update_self]
      simp
    · rw [update_of_ne hkk]
      simp [hkk]

end SlotTable
