import Mathlib.Tactic
import Mathlib.Order.Interval.Finset.Nat

/-!
# Ranges laid end to end

Things with a start and a length are given as a list.  `covered` is the set of numbers in their
ranges.  The place of a thing is where those before it end if they are put end to end from `b` on;
`EndToEnd b` says that all are in their places, and `Joins b` that some are.

* `covered_eq_Ico_iff`: ranges that are not empty cover exactly as many numbers from `b` on as their
  lengths add up to if and only if they can be put end to end from `b` on, in some order.
-/

namespace Tiling

variable {α : Type*} (start len : α → ℕ)

/-- The numbers in the ranges of a list. -/
def covered (l : List α) : Set ℕ := {a | ∃ x ∈ l, start x ≤ a ∧ a < start x + len x}

/-- The sum of the lengths. -/
def total (l : List α) : ℕ := (l.map len).sum

/-- The ranges follow each other from `b` on, in the order of the list. -/
def EndToEnd : ℕ → List α → Prop
  | _, [] => True
  | b, x :: l => start x = b ∧ EndToEnd (b + len x) l

/-- Some range starts where those before it end if they are put end to end from `b` on. -/
def Joins : ℕ → List α → Prop
  | _, [] => False
  | b, x :: l => start x = b ∨ Joins (b + len x) l

variable {start len} {l l' : List α} {b : ℕ} {x : α}

@[simp] theorem total_nil : total len ([] : List α) = 0 := rfl

@[simp] theorem total_cons : total len (x :: l) = len x + total len l := List.sum_cons

theorem total_append : total len (l ++ l') = total len l + total len l' := by
  simp [total]

theorem total_concat : total len (l ++ [x]) = total len l + len x := by
  simp [total]

theorem total_perm (h : l.Perm l') : total len l = total len l' := (h.map len).sum_eq

theorem covered_perm (h : l.Perm l') : covered start len l = covered start len l' := by
  ext a
  simp only [covered, Set.mem_ofPred_eq, h.mem_iff]

theorem mem_covered_cons {a : ℕ} :
    a ∈ covered start len (x :: l) ↔
      (start x ≤ a ∧ a < start x + len x) ∨ a ∈ covered start len l := by
  simp [covered]

@[simp] theorem covered_nil : covered start len ([] : List α) = ∅ := by
  simp [covered]

theorem joins_concat : Joins start len b (l ++ [x]) ↔
    Joins start len b l ∨ start x = b + total len l := by
  induction l generalizing b with
  | nil => simp [Joins]
  | cons y l ih =>
    rw [List.cons_append, Joins, ih, Joins, total_cons, Nat.add_assoc, or_assoc]

theorem Joins.append (h : Joins start len b l) : Joins start len b (l ++ l') := by
  induction l generalizing b with
  | nil => exact absurd h id
  | cons y l ih => exact Or.imp_right ih h

/-- Ranges that follow each other cover everything up to the last one's end. -/
theorem EndToEnd.covered_eq (h : EndToEnd start len b l) :
    covered start len l = Set.Ico b (b + total len l) := by
  induction l generalizing b with
  | nil => simp
  | cons x l ih =>
    obtain ⟨hx, hl⟩ := h
    ext a
    rw [mem_covered_cons, ih hl, hx, Set.mem_Ico, Set.mem_Ico, total_cons]
    omega

/-- A list of ranges covers no more numbers than the lengths add up to. -/
theorem card_le_total (S : Finset ℕ) (hS : ∀ a ∈ S, a ∈ covered start len l) :
    S.card ≤ total len l := by
  induction l generalizing S with
  | nil =>
    have hempty : S = ∅ := Finset.eq_empty_of_forall_notMem fun a ha => by simpa using hS a ha
    simp [hempty]
  | cons x l ih =>
    have hin : (S ∩ Finset.Ico (start x) (start x + len x)).card ≤ len x := by
      calc (S ∩ Finset.Ico (start x) (start x + len x)).card
          ≤ (Finset.Ico (start x) (start x + len x)).card :=
            Finset.card_le_card Finset.inter_subset_right
        _ = len x := by simp
    have hout : (S \ Finset.Ico (start x) (start x + len x)).card ≤ total len l := by
      refine ih _ fun a ha => ?_
      obtain ⟨haS, hax⟩ := Finset.mem_sdiff.1 ha
      exact (mem_covered_cons.1 (hS a haS)).resolve_left fun h => hax (Finset.mem_Ico.2 h)
    rw [← Finset.card_inter_add_card_sdiff S (Finset.Ico (start x) (start x + len x)), total_cons]
    omega

/-- A stretch that is covered is no longer than the lengths together. -/
theorem le_total_of_Ico (start : α → ℕ) {p q : ℕ}
    (h : ∀ a, p ≤ a → a < q → a ∈ covered start len l) : q - p ≤ total len l := by
  have hcard := card_le_total (Finset.Ico p q) fun a ha =>
    h a (Finset.mem_Ico.1 ha).1 (Finset.mem_Ico.1 ha).2
  simpa using hcard

/-- The first of ranges that cover just enough does not overlap the others. -/
theorem covered_tail (hpos : ∀ y ∈ x :: l, 0 < len y) (hx : start x = b)
    (h : covered start len (x :: l) = Set.Ico b (b + total len (x :: l))) :
    covered start len l = Set.Ico (b + len x) (b + len x + total len l) := by
  have hcov : ∀ a, a ∈ covered start len (x :: l) ↔ b ≤ a ∧ a < b + total len (x :: l) := by
    intro a
    rw [h, Set.mem_Ico]
  simp only [mem_covered_cons, total_cons, hx] at hcov
  ext a
  rw [Set.mem_Ico]
  constructor
  · rintro ⟨y, hy, hle, hlt⟩
    have ha := (hcov a).1 (Or.inr ⟨y, hy, hle, hlt⟩)
    refine ⟨?_, by omega⟩
    by_contra hbefore
    -- `y` overlaps `x`, so that what is left of it and the others cannot cover the rest
    obtain ⟨l₁, l₂, rfl⟩ := List.append_of_mem hy
    have hperm : (l₁ ++ y :: l₂).Perm (y :: (l₁ ++ l₂)) := List.perm_middle
    have hrest : b + len x + total len (l₁ ++ y :: l₂) - max (b + len x) (start y + len y) ≤
        total len (l₁ ++ l₂) := by
      refine le_total_of_Ico start fun c hc hc' => ?_
      have hcx := ((hcov c).2 ⟨by omega, by omega⟩).resolve_left (by omega)
      rw [covered_perm hperm, mem_covered_cons] at hcx
      exact hcx.resolve_left (by omega)
    have hend := (hcov (start y + len y - 1)).1 (Or.inr ⟨y, hy, by omega, by omega⟩)
    have hlen := hpos y (List.mem_cons_of_mem x hy)
    rw [total_perm hperm, total_cons] at hrest hend
    omega
  · rintro ⟨hle, hlt⟩
    exact ((hcov a).2 ⟨by omega, by omega⟩).resolve_left (by omega)

/-- **Ranges that cover just enough can be put end to end.** -/
theorem covered_eq_Ico_iff (hpos : ∀ x ∈ l, 0 < len x) :
    covered start len l = Set.Ico b (b + total len l) ↔
      ∃ l', l'.Perm l ∧ EndToEnd start len b l' := by
  constructor
  · intro h
    induction hn : l.length generalizing l b with
    | zero =>
      obtain rfl := List.eq_nil_of_length_eq_zero hn
      exact ⟨[], .refl _, trivial⟩
    | succ n ih =>
      -- the range that covers `b` starts there; the others cover the rest
      obtain ⟨y, hy⟩ := List.exists_mem_of_length_pos (l := l) (by omega)
      have hb : b ∈ covered start len l := by
        rw [h, Set.mem_Ico]
        have hle : len y ≤ total len l := List.single_le_sum (by simp) _ (List.mem_map_of_mem hy)
        have := hpos y hy
        omega
      obtain ⟨x, hx, hle, hlt⟩ := hb
      obtain ⟨l₁, l₂, rfl⟩ := List.append_of_mem hx
      have hperm : (l₁ ++ x :: l₂).Perm (x :: (l₁ ++ l₂)) := List.perm_middle
      have hstart : start x = b := by
        have hmem : start x ∈ covered start len (l₁ ++ x :: l₂) := ⟨x, hx, le_rfl, by omega⟩
        rw [h, Set.mem_Ico] at hmem
        omega
      have hpos' : ∀ z ∈ x :: (l₁ ++ l₂), 0 < len z := fun z hz => hpos z (hperm.mem_iff.2 hz)
      rw [covered_perm hperm, total_perm hperm] at h
      have hlen : (l₁ ++ l₂).length = n := by
        simp only [List.length_append, List.length_cons] at hn ⊢
        omega
      obtain ⟨l', hl', hends⟩ := ih (fun z hz => hpos' z (List.mem_cons_of_mem x hz))
        (covered_tail hpos' hstart h) hlen
      exact ⟨x :: l', (hl'.cons x).trans hperm.symm, hstart, hends⟩
  · rintro ⟨l', hperm, hends⟩
    rw [← covered_perm hperm, ← total_perm hperm]
    exact hends.covered_eq

end Tiling
