import Mathlib.Data.List.Nodup
import Mathlib.Logic.Function.Basic

/-!
# Chains of cells in a memory

A memory `h` has cells at some addresses.  A chain is a list of nodes; the node `m` is stored at
`addr m` in a cell `cell next m`, where `next` is the address of the node behind it, or of whatever
the chain ends with.

* `Linked h l stop`: the memory has the cells of the chain `l`, which ends with `stop`.
* `Linked.insertFirst`, `Linked.insertAfter`, `Linked.removeFirst`: the changes of a cell or two
  that make a chain longer or shorter.
-/

namespace Chain

open Function

variable {A M C : Type*} {addr : M → A} {cell : Option A → M → C}

/-- The pointer to the first node of a chain that ends with `stop`. -/
def start (addr : M → A) : List M → Option A → Option A
  | [], stop => stop
  | m :: _, _ => some (addr m)

/-- The memory has the nodes, each with a pointer to the one behind it. -/
def Linked (addr : M → A) (cell : Option A → M → C) (h : A → Option C) : List M → Option A → Prop
  | [], _ => True
  | m :: rest, stop =>
    h (addr m) = some (cell (start addr rest stop) m) ∧ Linked addr cell h rest stop

variable {h h' : A → Option C} {l l' : List M} {m x : M} {stop : Option A}

theorem start_append (l l' : List M) (stop : Option A) :
    start addr (l ++ l') stop = start addr l (start addr l' stop) := by
  cases l <;> rfl

theorem linked_cons :
    Linked addr cell h (m :: l) stop ↔
      h (addr m) = some (cell (start addr l stop) m) ∧ Linked addr cell h l stop := Iff.rfl

theorem linked_append :
    Linked addr cell h (l ++ l') stop ↔
      Linked addr cell h l (start addr l' stop) ∧ Linked addr cell h l' stop := by
  induction l with
  | nil => exact (and_iff_right trivial).symm
  | cons m rest ih =>
    rw [List.cons_append, linked_cons, linked_cons, ih, start_append, and_assoc]

/-- Where the cell of a node in the middle of a chain points to. -/
theorem Linked.cell_eq (hl : Linked addr cell h (l ++ m :: l') stop) :
    h (addr m) = some (cell (start addr l' stop) m) := (linked_append.1 hl).2.1

theorem Linked.isSome (hl : Linked addr cell h l stop) (hm : m ∈ l) : h (addr m) ≠ none := by
  obtain ⟨before, after, rfl⟩ := List.append_of_mem hm
  rw [hl.cell_eq]
  exact Option.some_ne_none _

/-- Only the cells of the nodes matter. -/
theorem Linked.congr (hl : Linked addr cell h l stop)
    (heq : ∀ m ∈ l, h' (addr m) = h (addr m)) : Linked addr cell h' l stop := by
  induction l with
  | nil => trivial
  | cons m rest ih =>
    refine ⟨(heq m List.mem_cons_self).trans hl.1, ih hl.2 fun m' hm' => ?_⟩
    exact heq m' (List.mem_cons_of_mem m hm')

variable [DecidableEq A]

/-- A cell elsewhere changes. -/
theorem Linked.update (hl : Linked addr cell h l stop) {a : A} (ha : a ∉ l.map addr)
    (c : Option C) : Linked addr cell (update h a c) l stop := by
  refine hl.congr fun m hm => update_of_ne ?_ _ _
  rintro rfl
  exact ha (List.mem_map_of_mem hm)

/-- A new cell that points to the first node. -/
theorem Linked.insertFirst (hl : Linked addr cell h l stop) (hx : addr x ∉ l.map addr) :
    Linked addr cell (Function.update h (addr x) (some (cell (start addr l stop) x)))
      (x :: l) stop :=
  ⟨update_self .., hl.update hx _⟩

/-- A new cell that points to the node behind `m`, and then `m` points to it. -/
theorem Linked.insertAfter (hl : Linked addr cell h (l ++ m :: l') stop)
    (hnd : ((l ++ m :: l').map addr).Nodup) (hx : addr x ∉ (l ++ m :: l').map addr) :
    Linked addr cell
      (Function.update (Function.update h (addr x) (some (cell (start addr l' stop) x))) (addr m)
        (some (cell (some (addr x)) m)))
      (l ++ m :: x :: l') stop := by
  rw [List.map_append, List.map_cons] at hnd hx
  obtain ⟨hm, -⟩ := List.nodup_middle.1 hnd |> List.nodup_cons.1
  obtain ⟨hxl, hxm, hxl'⟩ : addr x ∉ l.map addr ∧ addr x ≠ addr m ∧ addr x ∉ l'.map addr := by
    simpa using hx
  obtain ⟨hml, hml'⟩ : addr m ∉ l.map addr ∧ addr m ∉ l'.map addr := by simpa using hm
  obtain ⟨hbefore, -, hafter⟩ := linked_append.1 hl
  refine linked_append.2 ⟨(hbefore.update hxl _).update hml _, update_self .., ?_, ?_⟩
  · rw [update_of_ne hxm, update_self]
  · exact (hafter.update hxl' _).update hml' _

/-- The first cell is given back. -/
theorem Linked.removeFirst (hl : Linked addr cell h (m :: l) stop)
    (hnd : ((m :: l).map addr).Nodup) :
    Linked addr cell (Function.update h (addr m) none) l stop :=
  hl.2.update (List.nodup_cons.1 hnd).1 none

end Chain
