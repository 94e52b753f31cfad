import Mathlib.Data.List.Perm.Basic
import Mathlib.Order.Lattice

/-!
# Lists sorted by a key

Items are inserted behind those with the same key or a smaller one, and removed at the front.

* `sortedInsert_split`: where a new item goes in a sorted list.
* `pairwise_sortedInsert`: a relation between the items before and after each other is kept, if the
  new item has it to those with keys up to its own and from those with larger keys.
* `exists_lt_of_pairwise`: positions in an ordered list.
-/

namespace SortedList

variable {α K : Type*}

/-- An item with its key. -/
structure Node (α K : Type*) where
  item : α
  key : K
  deriving DecidableEq, Repr

section

variable [LinearOrder K]

/-- Insert in front of the first item with a larger key. -/
def sortedInsert (item : α) (sortKey : K) : List (Node α K) → List (Node α K)
  | [] => [⟨item, sortKey⟩]
  | node :: rest =>
    if sortKey < node.key then ⟨item, sortKey⟩ :: node :: rest
    else node :: sortedInsert item sortKey rest

/-- The first item, and the others. -/
def sortedRemove : List (Node α K) → Option (Node α K × List (Node α K))
  | [] => none
  | node :: rest => some (node, rest)

/-- The keys do not decrease. -/
def Sorted (l : List (Node α K)) : Prop := l.Pairwise fun a b => a.key ≤ b.key

variable {l : List (Node α K)}

/-- The new item stands between the keys up to its own and the larger ones. -/
theorem sortedInsert_split (item : α) (sortKey : K) (hl : Sorted l) :
    ∃ before after, l = before ++ after ∧
      sortedInsert item sortKey l = before ++ ⟨item, sortKey⟩ :: after ∧
      (∀ node ∈ before, node.key ≤ sortKey) ∧ ∀ node ∈ after, sortKey < node.key := by
  induction l with
  | nil => exact ⟨[], [], rfl, rfl, by simp, by simp⟩
  | cons node rest ih =>
    obtain ⟨hnode, hrest⟩ := List.pairwise_cons.1 hl
    by_cases hlt : sortKey < node.key
    · refine ⟨[], node :: rest, rfl, if_pos hlt, by simp, fun x hx => ?_⟩
      rcases List.mem_cons.1 hx with rfl | hx
      · exact hlt
      · exact hlt.trans_le (hnode x hx)
    · obtain ⟨before, after, hsplit, hins, hbefore, hafter⟩ := ih hrest
      refine ⟨node :: before, after, by rw [hsplit]; rfl, ?_, fun x hx => ?_, hafter⟩
      · rw [sortedInsert, if_neg hlt, hins]
        rfl
      · rcases List.mem_cons.1 hx with rfl | hx
        · exact not_lt.1 hlt
        · exact hbefore x hx

theorem sortedInsert_perm (item : α) (sortKey : K) (l : List (Node α K)) :
    (sortedInsert item sortKey l).Perm (⟨item, sortKey⟩ :: l) := by
  induction l with
  | nil => exact List.Perm.refl _
  | cons node rest ih =>
    rw [sortedInsert]
    split_ifs
    · exact List.Perm.refl _
    · exact (ih.cons node).trans (List.Perm.swap _ _ _)

/-- Items may be renamed before or after an insertion. -/
theorem map_sortedInsert {β : Type*} (f : α → β) (item : α) (sortKey : K) (l : List (Node α K)) :
    (sortedInsert item sortKey l).map (fun node => (⟨f node.item, node.key⟩ : Node β K)) =
      sortedInsert (f item) sortKey (l.map fun node => ⟨f node.item, node.key⟩) := by
  induction l with
  | nil => rfl
  | cons node rest ih =>
    rw [List.map_cons, sortedInsert, sortedInsert]
    split_ifs with hlt
    · rfl
    · rw [List.map_cons, ih]

/-- A relation from the front of the list to its end survives an insertion. -/
theorem pairwise_sortedInsert {R : Node α K → Node α K → Prop} {item : α} {sortKey : K}
    (hl : Sorted l) (hR : l.Pairwise R)
    (hle : ∀ node ∈ l, node.key ≤ sortKey → R node ⟨item, sortKey⟩)
    (hlt : ∀ node ∈ l, sortKey < node.key → R ⟨item, sortKey⟩ node) :
    (sortedInsert item sortKey l).Pairwise R := by
  obtain ⟨before, after, rfl, hins, hbefore, hafter⟩ := sortedInsert_split item sortKey hl
  obtain ⟨hRb, hRa, hRba⟩ := List.pairwise_append.1 hR
  rw [hins]
  refine List.pairwise_append.2 ⟨hRb, List.pairwise_cons.2 ⟨fun x hx => ?_, hRa⟩, ?_⟩
  · exact hlt x (List.mem_append_right _ hx) (hafter x hx)
  · intro x hx y hy
    rcases List.mem_cons.1 hy with rfl | hy
    · exact hle x (List.mem_append_left _ hx) (hbefore x hx)
    · exact hRba x hx y hy

theorem Sorted.sortedInsert (hl : Sorted l) (item : α) (sortKey : K) :
    Sorted (SortedList.sortedInsert item sortKey l) :=
  pairwise_sortedInsert hl hl (fun _ _ h => h) fun _ _ h => h.le

end

/-- Of two items of an ordered list, the one that is not after the other stands before it. -/
theorem exists_lt_of_pairwise {R : α → α → Prop} {l : List α} (h : l.Pairwise R) {a b : α}
    (ha : a ∈ l) (hb : b ∈ l) (hne : a ≠ b) (hR : ¬ R b a) :
    ∃ i j : ℕ, i < j ∧ l[i]? = some a ∧ l[j]? = some b := by
  obtain ⟨i, hi⟩ := List.getElem?_of_mem ha
  obtain ⟨j, hj⟩ := List.getElem?_of_mem hb
  refine ⟨i, j, ?_, hi, hj⟩
  by_contra hle
  rcases Nat.lt_or_eq_of_le (Nat.not_lt.1 hle) with hlt | rfl
  · obtain ⟨hi', rfl⟩ := List.getElem?_eq_some_iff.1 hi
    obtain ⟨hj', rfl⟩ := List.getElem?_eq_some_iff.1 hj
    exact hR (List.pairwise_iff_getElem.1 h j i hj' hi' hlt)
  · rw [hi] at hj
    exact hne (Option.some.inj hj)

end SortedList
