import Mathlib.Tactic
import Nachos.Lib.Chain
import Nachos.Lib.Effect
import Nachos.Lib.SortedList
import Nachos.Lib.Transition

/-!
# Linked lists

`class List` of `threads/list.h`, for any type of items: the elements are in memory, and a list has
pointers to the first and to the last.

* Any number of lists share the memory.  `new` returns any address that is not in use, and `delete`
  gives one back; where the pointer is `NULL`, or points to an element that has been deleted, the
  code breaks off.
* A loop gets a number of turns, and breaks off when they are not enough.
* `LinkedList.Holds h l nodes`: the memory holds the chain `nodes`, and `l` points to its ends.
* `ListSystem.seq` is the sequence that a list stands for: what the operations do to it is said
  without pointers.  It is written by the steps, and never read; so are `inserted` and `removed`.
-/

namespace Nachos

open Chain Fallible SortedList Function

/-- `class ListElement`. -/
structure ListElement (Item : Type) where
  next : Option ℕ
  key : ℤ
  item : Item
  deriving DecidableEq, Repr

/-- The elements in memory. -/
abbrev ListHeap (Item : Type) : Type := ℕ → Option (ListElement Item)

/-- `class List`. -/
structure LinkedList where
  first : Option ℕ
  last : Option ℕ
  deriving DecidableEq, Repr

/-- How the code breaks off. -/
inductive ListFault
  | badPointer
  | diverged
  deriving DecidableEq, Repr

/-- Code that works on elements. -/
abbrev ListCode (Item : Type) := StateT (ListHeap Item) (Except ListFault)

variable {Item : Type}

/-- The element that a pointer points to. -/
def loadElement (ptr : Option ℕ) : ListCode Item (ListElement Item) := fun h =>
  match ptr.bind h with
  | some element => .ok (element, h)
  | none => .error .badPointer

/-- `ptr->next = next`. -/
def setNext (ptr next : Option ℕ) : ListCode Item Unit := fun h =>
  match ptr with
  | none => .error .badPointer
  | some a =>
    match h a with
    | some element => .ok ((), update h a (some { element with next := next }))
    | none => .error .badPointer

/-- `new ListNode(item, sortKey)`, at the address `element`. -/
def newNode (element : ℕ) (item : Item) (sortKey : ℤ) : ListCode Item Unit := fun h =>
  .ok ((), update h element (some ⟨none, sortKey, item⟩))

/-- `delete ptr`. -/
def deleteNode (ptr : Option ℕ) : ListCode Item Unit := fun h =>
  match ptr with
  | none => .error .badPointer
  | some a => .ok ((), update h a none)

namespace LinkedList

/-- `List::List`. -/
def new : LinkedList := ⟨none, none⟩

/-- `List::IsEmpty`. -/
def isEmpty (l : LinkedList) : Bool := l.first.isNone

/-- `List::Append`. -/
def append (element : ℕ) (item : Item) (l : LinkedList) : ListCode Item LinkedList := do
  newNode element item 0
  if l.isEmpty then
    return { first := some element, last := some element }
  else
    setNext l.last (some element)
    return { l with last := some element }

/-- `List::Prepend`. -/
def prepend (element : ℕ) (item : Item) (l : LinkedList) : ListCode Item LinkedList := do
  newNode element item 0
  if l.isEmpty then
    return { first := some element, last := some element }
  else
    setNext (some element) l.first
    return { l with first := some element }

/-- The loop of `SortedInsert`, and what follows it. -/
def sortedInsertLoop (element : ℕ) (sortKey : ℤ) (l : LinkedList) :
    ℕ → Option ℕ → ListCode Item LinkedList
  | 0, _ => throw .diverged
  | fuel + 1, ptr => do
    let node ← loadElement ptr
    if node.next = none then
      -- the item goes to the end of the list
      setNext l.last (some element)
      return { l with last := some element }
    else
      let behind ← loadElement node.next
      if sortKey < behind.key then
        setNext (some element) node.next
        setNext ptr (some element)
        return l
      else sortedInsertLoop element sortKey l fuel node.next

/-- `List::SortedInsert`. -/
def sortedInsert (fuel : ℕ) (element : ℕ) (item : Item) (sortKey : ℤ) (l : LinkedList) :
    ListCode Item LinkedList := do
  newNode element item sortKey
  if l.isEmpty then
    return { first := some element, last := some element }
  else
    let first ← loadElement l.first
    if sortKey < first.key then
      setNext (some element) l.first
      return { l with first := some element }
    else sortedInsertLoop element sortKey l fuel l.first

/-- `List::SortedRemove`: the item, what `*keyPtr` is set to, if anything, and the list. -/
def sortedRemove [Inhabited Item] (l : LinkedList) :
    ListCode Item (Item × Option ℤ × LinkedList) := do
  if l.isEmpty then
    return (default, none, l)
  else
    let element ← loadElement l.first
    deleteNode l.first
    return (element.item, some element.key,
      if l.first = l.last then { first := none, last := none }
      else { l with first := element.next })

/-- `List::Remove`. -/
def remove [Inhabited Item] (l : LinkedList) : ListCode Item (Item × LinkedList) := do
  let removed ← l.sortedRemove
  return (removed.1, removed.2.2)

/-- The loop of `List::Apply`: the elements that it comes to, with their addresses. -/
def applyLoop (h : ListHeap Item) : ℕ → Option ℕ → Except ListFault (List (ℕ × ListElement Item))
  | _, none => .ok []
  | 0, some _ => .error .diverged
  | fuel + 1, some a =>
    match h a with
    | some element => (applyLoop h fuel element.next).map ((a, element) :: ·)
    | none => .error .badPointer

end LinkedList

/-! ### Chains of elements -/

/-- An element of a chain: its address, its item and its key. -/
abbrev ListNode (Item : Type) : Type := Node (ℕ × Item) ℤ

namespace ListNode

/-- Where it is. -/
def addr (x : ListNode Item) : ℕ := x.item.1

/-- What is there, when it points to `next`. -/
def cell (next : Option ℕ) (x : ListNode Item) : ListElement Item := ⟨next, x.key, x.item.2⟩

theorem cell_next (next : Option ℕ) (x : ListNode Item) : (cell next x).next = next := rfl

/-- The item and the key. -/
def content (x : ListNode Item) : Node Item ℤ := ⟨x.item.2, x.key⟩

end ListNode

open ListNode (addr cell content)

/-- The memory holds the chain, and the list points to its first node and to its last. -/
structure LinkedList.Holds (h : ListHeap Item) (l : LinkedList) (nodes : List (ListNode Item)) :
    Prop where
  linked : Linked addr cell h nodes none
  nodup : (nodes.map addr).Nodup
  first : l.first = start addr nodes none
  last : l.last = nodes.getLast?.map addr

/-- A node has been inserted, and no element changes that is not in the list. -/
structure Inserts (h : ListHeap Item) (nodes : List (ListNode Item)) (x : ListNode Item)
    (h' : ListHeap Item) (l' : LinkedList) (nodes' : List (ListNode Item)) : Prop where
  holds : l'.Holds h' nodes'
  perm : nodes'.Perm (x :: nodes)
  frame : ∀ a, a ≠ addr x → a ∉ nodes.map addr → h' a = h a

section runs

variable {h : ListHeap Item} {l l' : LinkedList} {nodes : List (ListNode Item)}
  {x m : ListNode Item}

theorem loadElement_run {a : ℕ} {element : ListElement Item} (ha : h a = some element) :
    loadElement (some a) h = .ok (element, h) := by
  simp only [loadElement, Option.bind_some, ha]

theorem setNext_run {a : ℕ} {element : ListElement Item} (ha : h a = some element)
    (next : Option ℕ) :
    setNext (some a) next h =
      .ok ((), update h a (some { element with next := next })) := by
  simp only [setNext, ha]

/-- The pointer of an element that has been written before. -/
theorem setNext_update (h : ListHeap Item) (a : ℕ) (element : ListElement Item)
    (next : Option ℕ) :
    setNext (some a) next (update h a (some element)) =
      .ok ((), update h a (some { element with next := next })) := by
  rw [setNext_run (update_self ..), update_idem]

namespace LinkedList

theorem Holds.isEmpty_iff (hh : l.Holds h nodes) : l.isEmpty = true ↔ nodes = [] := by
  rw [isEmpty, hh.first]
  cases nodes <;> simp [start]

theorem Holds.notMem (hh : l.Holds h nodes) (hx : h (addr x) = none) :
    addr x ∉ nodes.map addr := by
  intro hmem
  obtain ⟨y, hy, hyx⟩ := List.mem_map.1 hmem
  exact hh.linked.isSome hy (hyx ▸ hx)

theorem Holds.of_frame (hh : l.Holds h nodes) {h' : ListHeap Item}
    (hframe : ∀ y ∈ nodes, h' (addr y) = h (addr y)) : l.Holds h' nodes :=
  { hh with linked := hh.linked.congr hframe }

end LinkedList

theorem nodup_of_perm {nodes' : List (ListNode Item)} (hperm : nodes'.Perm (x :: nodes))
    (hnd : (nodes.map addr).Nodup) (hx : addr x ∉ nodes.map addr) :
    (nodes'.map addr).Nodup :=
  (hperm.map addr).nodup_iff.2 (List.nodup_cons.2 ⟨hx, hnd⟩)

/-- The new node is the first. -/
theorem Inserts.first (hh : l.Holds h nodes) (hx : h (addr x) = none)
    (hfirst : l'.first = some (addr x)) (hlast : l'.last = (x :: nodes).getLast?.map addr) :
    Inserts h nodes x
      (update h (addr x) (some (cell (start addr nodes none) x))) l' (x :: nodes) where
  holds :=
    { linked := hh.linked.insertFirst (hh.notMem hx)
      nodup := nodup_of_perm (List.Perm.refl _) hh.nodup (hh.notMem hx)
      first := hfirst
      last := hlast }
  perm := List.Perm.refl _
  frame _ ha _ := update_of_ne ha _ _

/-- The new node is behind another. -/
theorem Inserts.after {before behind : List (ListNode Item)}
    (hh : l.Holds h (before ++ m :: behind)) (hx : h (addr x) = none) (hfirst : l'.first = l.first)
    (hlast : l'.last = (before ++ m :: x :: behind).getLast?.map addr) :
    Inserts h (before ++ m :: behind) x
      (update
        (update h (addr x) (some (cell (start addr behind none) x))) (addr m)
        (some (cell (some (addr x)) m)))
      l' (before ++ m :: x :: behind) := by
  have hnot := hh.notMem hx
  have hperm : (before ++ m :: x :: behind).Perm (x :: (before ++ m :: behind)) := by
    have hmid : (before ++ [m] ++ x :: behind).Perm (x :: (before ++ [m] ++ behind)) :=
      List.perm_middle
    simpa only [List.append_assoc, List.singleton_append] using hmid
  refine ⟨⟨hh.linked.insertAfter hh.nodup hnot, nodup_of_perm hperm hh.nodup hnot, ?_, hlast⟩,
    hperm, fun a hax ha => ?_⟩
  · rw [hfirst, hh.first, start_append, start_append]
    rfl
  · rw [update_of_ne, update_of_ne hax]
    rintro rfl
    exact ha (List.mem_map_of_mem (List.mem_append_right _ List.mem_cons_self))

/-! ### The operations -/

namespace LinkedList

/-- The first element of a list. -/
theorem Holds.inserts_empty (hh : l.Holds h []) (hx : h (addr x) = none) :
    Inserts h [] x (update h (addr x) (some (cell none x)))
      ⟨some (addr x), some (addr x)⟩ [x] :=
  Inserts.first hh hx rfl rfl

/-- A node of the list is not where the new one is. -/
theorem Holds.ne_addr (hh : l.Holds h nodes) (hx : h (addr x) = none) (hm : m ∈ nodes) :
    addr m ≠ addr x := fun he => hh.linked.isSome hm (he ▸ hx)

variable {element fuel : ℕ}

theorem append_run (hh : l.Holds h nodes) (hfree : h element = none) (item : Item) :
    ∃ l' h', append element item l h = .ok (l', h') ∧
      Inserts h nodes ⟨(element, item), 0⟩ h' l' (nodes ++ [⟨(element, item), 0⟩]) := by
  unfold append
  rcases List.eq_nil_or_concat' nodes with rfl | ⟨before, m, rfl⟩
  · refine ⟨_, _, ?_, hh.inserts_empty hfree⟩
    rw [hh.isEmpty_iff.2 rfl]
    rfl
  · have hlast : l.last = some (addr m) := by rw [hh.last]; simp
    have hm : h (addr m) = some (cell none m) := hh.linked.cell_eq
    have hne : addr m ≠ element :=
      hh.ne_addr (x := ⟨(element, item), 0⟩) hfree (by simp)
    have hafter : Inserts h (before ++ [m]) ⟨(element, item), 0⟩ _ { l with last := some element }
        (before ++ [m, ⟨(element, item), 0⟩]) := Inserts.after hh hfree rfl (by simp [addr])
    rw [List.append_assoc]
    refine ⟨_, _, ?_, hafter⟩
    rw [bind_run rfl, if_neg (by simp [hh.isEmpty_iff]), hlast,
      bind_run (setNext_run (by rw [update_of_ne hne, hm]) _)]
    rfl

theorem prepend_run (hh : l.Holds h nodes) (hfree : h element = none) (item : Item) :
    ∃ l' h', prepend element item l h = .ok (l', h') ∧
      Inserts h nodes ⟨(element, item), 0⟩ h' l' (⟨(element, item), 0⟩ :: nodes) := by
  unfold prepend
  cases nodes with
  | nil =>
    refine ⟨_, _, ?_, hh.inserts_empty hfree⟩
    rw [hh.isEmpty_iff.2 rfl]
    rfl
  | cons m rest =>
    refine ⟨{ l with first := some element }, _, ?_,
      Inserts.first hh (x := ⟨(element, item), 0⟩) hfree rfl ?_⟩
    · rw [bind_run rfl, if_neg (by simp [hh.isEmpty_iff]), bind_run (setNext_update ..), hh.first]
      rfl
    · rw [List.getLast?_cons_cons]
      exact hh.last

/-- The loop of `SortedInsert`, at the node `m`, in front of which the new one does not go. -/
theorem sortedInsertLoop_run {before behind : List (ListNode Item)}
    (hh : l.Holds h (before ++ m :: behind)) (hx : h (addr x) = none)
    (hfuel : behind.length < fuel) :
    ∃ l' h', sortedInsertLoop (addr x) x.key l fuel (some (addr m))
        (update h (addr x) (some (cell none x))) = .ok (l', h') ∧
      Inserts h (before ++ m :: behind) x h' l'
        (before ++ m :: SortedList.sortedInsert x.item x.key behind) := by
  induction behind generalizing before m fuel with
  | nil =>
    obtain ⟨fuel, rfl⟩ := Nat.exists_eq_succ_of_ne_zero (by omega : fuel ≠ 0)
    have hmx : addr m ≠ addr x := hh.ne_addr hx (by simp)
    have hm : update h (addr x) (some (cell none x)) (addr m) = some (cell none m) := by
      rw [update_of_ne hmx]
      exact hh.linked.cell_eq
    have hlast : l.last = some (addr m) := by rw [hh.last]; simp
    refine ⟨{ l with last := some (addr x) }, _, ?_, Inserts.after hh hx rfl (by simp)⟩
    rw [sortedInsertLoop, bind_run (loadElement_run hm), ListNode.cell_next, if_pos rfl, hlast,
      bind_run (setNext_run hm _)]
    rfl
  | cons q rest ih =>
    obtain ⟨fuel, rfl⟩ := Nat.exists_eq_succ_of_ne_zero (by omega : fuel ≠ 0)
    have hmx : addr m ≠ addr x := hh.ne_addr hx (by simp)
    have hqx : addr q ≠ addr x := hh.ne_addr hx (by simp)
    have hsplit : before ++ m :: q :: rest = before ++ [m] ++ q :: rest := by simp
    have hm : h (addr m) = some (cell (some (addr q)) m) := hh.linked.cell_eq
    have hq : h (addr q) = some (cell (start addr rest none) q) :=
      (hsplit ▸ hh.linked).cell_eq
    rw [sortedInsertLoop, bind_run (loadElement_run (by rw [update_of_ne hmx, hm])),
      ListNode.cell_next, if_neg (Option.some_ne_none _),
      bind_run (loadElement_run (by rw [update_of_ne hqx, hq])),
      SortedList.sortedInsert]
    by_cases hlt : x.key < q.key
    · rw [if_pos (show x.key < (cell (start addr rest none) q).key from hlt), if_pos hlt]
      have hlast : l.last = (before ++ m :: x :: q :: rest).getLast?.map addr := by
        rw [hh.last]
        simp
      refine ⟨l, _, ?_, Inserts.after hh hx rfl hlast⟩
      rw [bind_run (setNext_update ..),
        bind_run (setNext_run (by rw [update_of_ne hmx, hm]) _)]
      rfl
    · rw [if_neg (show ¬ x.key < (cell (start addr rest none) q).key from hlt), if_neg hlt]
      have hrest : rest.length < fuel := Nat.lt_of_succ_lt_succ hfuel
      obtain ⟨l', h', hrun, hins⟩ := ih (hsplit ▸ hh) hrest
      refine ⟨l', h', hrun, ?_⟩
      rw [hsplit, show before ++ m :: q :: SortedList.sortedInsert x.item x.key rest =
        before ++ [m] ++ q :: SortedList.sortedInsert x.item x.key rest by simp]
      exact hins

theorem sortedInsert_run (hh : l.Holds h nodes) (hfree : h element = none) (item : Item)
    (sortKey : ℤ) (hfuel : nodes.length ≤ fuel) :
    ∃ l' h', sortedInsert fuel element item sortKey l h = .ok (l', h') ∧
      Inserts h nodes ⟨(element, item), sortKey⟩ h' l'
        (SortedList.sortedInsert (element, item) sortKey nodes) := by
  unfold sortedInsert
  cases nodes with
  | nil =>
    refine ⟨_, _, ?_, hh.inserts_empty hfree⟩
    rw [hh.isEmpty_iff.2 rfl]
    rfl
  | cons m rest =>
    have hmx : addr m ≠ element :=
      hh.ne_addr (x := ⟨(element, item), sortKey⟩) hfree List.mem_cons_self
    have hfirst : l.first = some (addr m) := hh.first
    rw [bind_run rfl, if_neg (by simp [hh.isEmpty_iff]), hfirst,
      bind_run (loadElement_run (by rw [update_of_ne hmx]; exact hh.linked.1)),
      SortedList.sortedInsert]
    by_cases hlt : sortKey < m.key
    · rw [if_pos (show sortKey < (cell (start addr rest none) m).key from hlt), if_pos hlt]
      refine ⟨{ l with first := some element }, _, ?_,
        Inserts.first hh (x := ⟨(element, item), sortKey⟩) hfree rfl ?_⟩
      · rw [bind_run (setNext_update ..)]
        rfl
      · rw [List.getLast?_cons_cons]
        exact hh.last
    · rw [if_neg (show ¬ sortKey < (cell (start addr rest none) m).key from hlt), if_neg hlt]
      exact sortedInsertLoop_run (x := ⟨(element, item), sortKey⟩)
        (show l.Holds h ([] ++ m :: rest) from hh) hfree hfuel

/-- More turns than are needed make no difference. -/
theorem sortedInsertLoop_mono {sortKey : ℤ} {fuel' : ℕ} (hle : fuel ≤ fuel') {ptr : Option ℕ}
    {h' : ListHeap Item} (hrun : sortedInsertLoop element sortKey l fuel ptr h = .ok (l', h')) :
    sortedInsertLoop element sortKey l fuel' ptr h = .ok (l', h') := by
  induction fuel generalizing fuel' ptr h with
  | zero => cases hrun
  | succ fuel ih =>
    obtain ⟨fuel', rfl⟩ := Nat.exists_eq_succ_of_ne_zero (by omega : fuel' ≠ 0)
    rw [sortedInsertLoop] at hrun ⊢
    obtain ⟨node, t, hload, hrun⟩ := bind_eq_ok.1 hrun
    rw [bind_run hload]
    split_ifs at hrun ⊢ with hnext
    · exact hrun
    · obtain ⟨behind, t', hload', hrun⟩ := bind_eq_ok.1 hrun
      rw [bind_run hload']
      split_ifs at hrun ⊢ with hlt
      · exact hrun
      · exact ih (Nat.le_of_succ_le_succ hle) hrun

theorem sortedInsert_mono {item : Item} {sortKey : ℤ} {fuel' : ℕ} (hle : fuel ≤ fuel')
    {h' : ListHeap Item} (hrun : sortedInsert fuel element item sortKey l h = .ok (l', h')) :
    sortedInsert fuel' element item sortKey l h = .ok (l', h') := by
  unfold sortedInsert at hrun ⊢
  obtain ⟨_, t, hnew, hrun⟩ := bind_eq_ok.1 hrun
  rw [bind_run hnew]
  split_ifs at hrun ⊢
  · exact hrun
  · obtain ⟨first, t', hload, hrun⟩ := bind_eq_ok.1 hrun
    rw [bind_run hload]
    split_ifs at hrun ⊢
    · exact hrun
    · exact sortedInsertLoop_mono hle hrun

/-- `SortedRemove` takes the first node. -/
theorem sortedRemove_run [Inhabited Item] (hh : l.Holds h (m :: nodes)) :
    ∃ l', sortedRemove l h =
        .ok ((m.item.2, some m.key, l'), update h (addr m) none) ∧
      l'.Holds (update h (addr m) none) nodes := by
  have hfirst : l.first = some (addr m) := hh.first
  have hlinked := hh.linked.removeFirst hh.nodup
  refine ⟨if l.first = l.last then ⟨none, none⟩ else { l with first := start addr nodes none },
    ?_, ?_⟩
  · unfold sortedRemove
    rw [if_neg (by simp [hh.isEmpty_iff]), hfirst, bind_run (loadElement_run hh.linked.1),
      bind_run rfl]
    rfl
  · obtain ⟨hnot, hnd⟩ := List.nodup_cons.1 hh.nodup
    rcases List.eq_nil_or_concat' nodes with rfl | ⟨before, y, rfl⟩
    · rw [if_pos (by rw [hfirst, hh.last]; rfl)]
      exact ⟨hlinked, hnd, rfl, rfl⟩
    · have hlast : l.last = some (addr y) := by
        rw [hh.last, ← List.cons_append, List.getLast?_concat, Option.map_some]
      rw [if_neg]
      · refine ⟨hlinked, hnd, rfl, ?_⟩
        rw [hlast]
        simp
      · -- the last node is another one
        rw [hfirst, hlast]
        intro he
        exact hnot (Option.some.inj he ▸ List.mem_map_of_mem (by simp))

theorem sortedRemove_empty [Inhabited Item] (hh : l.Holds h []) :
    sortedRemove l h = .ok ((default, none, l), h) := by
  unfold sortedRemove
  rw [hh.isEmpty_iff.2 rfl]
  rfl

/-- `Apply` comes to all elements of the chain. -/
theorem applyLoop_run {nodes : List (ListNode Item)} (hl : Linked addr cell h nodes none) :
    ∃ visited, (∀ fuel, nodes.length ≤ fuel →
        applyLoop h fuel (start addr nodes none) = .ok visited) ∧
      visited.map Prod.fst = nodes.map addr ∧
      visited.map (fun p => (⟨p.2.item, p.2.key⟩ : Node Item ℤ)) = nodes.map content := by
  induction nodes with
  | nil => exact ⟨[], fun fuel _ => by cases fuel <;> rfl, rfl, rfl⟩
  | cons m rest ih =>
    obtain ⟨visited, hrun, haddr, hcontent⟩ := ih hl.2
    refine ⟨(addr m, cell (start addr rest none) m) :: visited, fun fuel hfuel => ?_, ?_, ?_⟩
    · rw [List.length_cons] at hfuel
      obtain ⟨fuel, rfl⟩ := Nat.exists_eq_succ_of_ne_zero (by omega : fuel ≠ 0)
      rw [start, applyLoop, hl.1]
      exact map_eq_ok.2 ⟨visited, hrun fuel (Nat.le_of_succ_le_succ hfuel), rfl⟩
    · rw [List.map_cons, List.map_cons, haddr]
    · rw [List.map_cons, List.map_cons, hcontent]
      rfl

end LinkedList

end runs

/-! ### Runs -/

variable {ι : Type}

/-- Lists that share the memory, and the sequences that they stand for. -/
structure ListSystem (ι Item : Type) where
  heap : ListHeap Item
  list : ι → LinkedList
  seq : ι → List (Node Item ℤ)
  inserted : ι → List Item
  removed : ι → List Item

/-- What is done next. -/
inductive ListEvent (ι Item : Type)
  | append (i : ι) (item : Item)
  | prepend (i : ι) (item : Item)
  | sortedInsert (i : ι) (item : Item) (sortKey : ℤ)
  | remove (i : ι)
  | sortedRemove (i : ι)

namespace ListSystem

variable [DecidableEq ι]

/-- An item has been put into list `i`. -/
def insert (s : ListSystem ι Item) (i : ι) (item : Item) (seq : List (Node Item ℤ))
    (l : LinkedList) (heap : ListHeap Item) : ListSystem ι Item where
  heap := heap
  list := update s.list i l
  seq := update s.seq i seq
  inserted := update s.inserted i (item :: s.inserted i)
  removed := s.removed

/-- `Remove` or `SortedRemove` has returned `thing`; from an empty list it is no item of the
list. -/
def erase (s : ListSystem ι Item) (i : ι) (thing : Item) (l : LinkedList)
    (heap : ListHeap Item) : ListSystem ι Item where
  heap := heap
  list := update s.list i l
  seq := update s.seq i (s.seq i).tail
  inserted := s.inserted
  removed := if (s.list i).isEmpty then s.removed
    else update s.removed i (thing :: s.removed i)

end ListSystem

/-- The steps.  `new` returns some address that is not in use, and the loop of `SortedInsert` may
take any number of turns. -/
inductive ListStep [DecidableEq ι] [Inhabited Item] :
    ListSystem ι Item → ListEvent ι Item → ListSystem ι Item → Prop
  | append {s : ListSystem ι Item} {i : ι} {item : Item} {element : ℕ} {l : LinkedList}
      {heap : ListHeap Item} (hfree : s.heap element = none)
      (h : (s.list i).append element item s.heap = .ok (l, heap)) :
      ListStep s (.append i item) (s.insert i item (s.seq i ++ [⟨item, 0⟩]) l heap)
  | prepend {s : ListSystem ι Item} {i : ι} {item : Item} {element : ℕ} {l : LinkedList}
      {heap : ListHeap Item} (hfree : s.heap element = none)
      (h : (s.list i).prepend element item s.heap = .ok (l, heap)) :
      ListStep s (.prepend i item) (s.insert i item (⟨item, 0⟩ :: s.seq i) l heap)
  | sortedInsert {s : ListSystem ι Item} {i : ι} {item : Item} {sortKey : ℤ} {fuel element : ℕ}
      {l : LinkedList} {heap : ListHeap Item} (hfree : s.heap element = none)
      (h : (s.list i).sortedInsert fuel element item sortKey s.heap = .ok (l, heap)) :
      ListStep s (.sortedInsert i item sortKey)
        (s.insert i item (sortedInsert item sortKey (s.seq i)) l heap)
  | remove {s : ListSystem ι Item} {i : ι} {thing : Item} {l : LinkedList} {heap : ListHeap Item}
      (h : (s.list i).remove s.heap = .ok ((thing, l), heap)) :
      ListStep s (.remove i) (s.erase i thing l heap)
  | sortedRemove {s : ListSystem ι Item} {i : ι} {thing : Item} {key : Option ℤ} {l : LinkedList}
      {heap : ListHeap Item} (h : (s.list i).sortedRemove s.heap = .ok ((thing, key, l), heap)) :
      ListStep s (.sortedRemove i) (s.erase i thing l heap)

/-- All lists are new, and no element is in memory. -/
def ListInit (s : ListSystem ι Item) : Prop :=
  s = ⟨fun _ => none, fun _ => .new, fun _ => [], fun _ => [], fun _ => []⟩

/-- The states of all runs. -/
def ListReach [DecidableEq ι] [Inhabited Item] (s : ListSystem ι Item) : Prop :=
  Transition.Reach ListInit ListStep s

/-- Every list holds its sequence, in elements of its own; its items are those that were inserted
and not removed. -/
structure ListInv (s : ListSystem ι Item) (nodes : ι → List (ListNode Item)) : Prop where
  holds : ∀ i, (s.list i).Holds s.heap (nodes i)
  seq : ∀ i, s.seq i = (nodes i).map content
  apart : ∀ i j, i ≠ j → ∀ a ∈ (nodes i).map addr, a ∉ (nodes j).map addr
  items : ∀ i, (s.inserted i).Perm (s.removed i ++ (s.seq i).map Node.item)

section invariant

variable {s : ListSystem ι Item} {nodes : ι → List (ListNode Item)} {i : ι}

theorem listInv_init (h : ListInit s) : ListInv s fun _ => [] := by
  subst h
  exact
    { holds := fun _ => ⟨trivial, List.nodup_nil, rfl, rfl⟩
      seq := fun _ => rfl
      apart := fun _ _ _ a ha => absurd ha List.not_mem_nil
      items := fun _ => List.Perm.refl _ }

variable [DecidableEq ι]

/-- The lists stay apart when one of them gets addresses that are its own or in no list. -/
theorem ListInv.apart_update (hinv : ListInv s nodes) {nodes' : List (ListNode Item)}
    (hmem : ∀ a ∈ nodes'.map addr, a ∈ (nodes i).map addr ∨ ∀ j, a ∉ (nodes j).map addr)
    {j k : ι} (hjk : j ≠ k) {a : ℕ} (ha : a ∈ (update nodes i nodes' j).map addr) :
    a ∉ (update nodes i nodes' k).map addr := by
  intro hak
  by_cases hj : j = i
  · subst hj
    rw [update_self] at ha
    rw [update_of_ne (Ne.symm hjk)] at hak
    rcases hmem a ha with ha | hnone
    · exact hinv.apart j k hjk a ha hak
    · exact hnone k hak
  · rw [update_of_ne hj] at ha
    by_cases hk : k = i
    · subst hk
      rw [update_self] at hak
      rcases hmem a hak with hak | hnone
      · exact hinv.apart j k hjk a ha hak
      · exact hnone j ha
    · rw [update_of_ne hk] at hak
      exact hinv.apart j k hjk a ha hak

/-- A node goes into list `i`. -/
theorem ListInv.insert (hinv : ListInv s nodes) {x : ListNode Item} {l : LinkedList}
    {heap : ListHeap Item} {nodes' : List (ListNode Item)} (hx : s.heap (addr x) = none)
    (hins : Inserts s.heap (nodes i) x heap l nodes') {seq : List (Node Item ℤ)}
    (hseq : seq = nodes'.map content) :
    ListInv (s.insert i x.item.2 seq l heap) (update nodes i nodes') := by
  have hfresh : ∀ j, addr x ∉ (nodes j).map addr := fun j => (hinv.holds j).notMem hx
  have hmem : ∀ a ∈ nodes'.map addr, a ∈ (nodes i).map addr ∨ ∀ j, a ∉ (nodes j).map addr := by
    intro a ha
    rcases List.mem_cons.1 ((hins.perm.map addr).mem_iff.1 ha) with rfl | ha
    · exact Or.inr hfresh
    · exact Or.inl ha
  refine ⟨fun j => ?_, fun j => ?_, fun j k hjk a ha => hinv.apart_update hmem hjk ha, fun j => ?_⟩
  · by_cases hj : j = i
    · subst hj
      simpa only [ListSystem.insert, update_self] using hins.holds
    · simp only [ListSystem.insert, update_of_ne hj]
      refine (hinv.holds j).of_frame fun y hy => hins.frame _ ?_ ?_
      · rintro he
        exact hfresh j (he ▸ List.mem_map_of_mem hy)
      · exact hinv.apart j i hj _ (List.mem_map_of_mem hy)
  · by_cases hj : j = i
    · subst hj
      simpa only [ListSystem.insert, update_self] using hseq
    · simpa only [ListSystem.insert, update_of_ne hj] using hinv.seq j
  · by_cases hj : j = i
    · subst hj
      have hperm : (seq.map Node.item).Perm (x.item.2 :: (s.seq j).map Node.item) := by
        rw [hseq, hinv.seq j, List.map_map, List.map_map]
        exact hins.perm.map _
      simp only [ListSystem.insert, update_self]
      refine ((hinv.items j).cons _).trans ?_
      exact (List.perm_middle.symm.trans (hperm.symm.append_left _))
    · simpa only [ListSystem.insert, update_of_ne hj] using hinv.items j

/-- The first node of list `i` is taken. -/
theorem ListInv.erase (hinv : ListInv s nodes) {m : ListNode Item} {rest : List (ListNode Item)}
    (hi : nodes i = m :: rest) {l : LinkedList}
    (hl : l.Holds (update s.heap (addr m) none) rest) :
    ListInv (s.erase i m.item.2 l (update s.heap (addr m) none))
      (update nodes i rest) := by
  have hsub : ∀ a ∈ rest.map addr, a ∈ (nodes i).map addr ∨ ∀ j, a ∉ (nodes j).map addr := by
    intro a ha
    rw [hi]
    exact Or.inl (List.mem_cons_of_mem _ ha)
  have hm : addr m ∈ (nodes i).map addr := by
    rw [hi]
    exact List.mem_cons_self
  have hnonempty : (s.list i).isEmpty = false := by
    rw [Bool.eq_false_iff, ne_eq, (hinv.holds i).isEmpty_iff, hi]
    exact List.cons_ne_nil _ _
  refine ⟨fun j => ?_, fun j => ?_, fun j k hjk a ha => hinv.apart_update hsub hjk ha, fun j => ?_⟩
  · by_cases hj : j = i
    · subst hj
      simpa only [ListSystem.erase, update_self] using hl
    · simp only [ListSystem.erase, update_of_ne hj]
      refine (hinv.holds j).of_frame fun y hy => update_of_ne ?_ _ _
      intro he
      exact hinv.apart j i hj _ (List.mem_map_of_mem hy) (he ▸ hm)
  · by_cases hj : j = i
    · subst hj
      simp only [ListSystem.erase, update_self, hinv.seq j, hi, List.map_cons,
        List.tail_cons]
    · simpa only [ListSystem.erase, update_of_ne hj] using hinv.seq j
  · by_cases hj : j = i
    · subst hj
      have hitems := hinv.items j
      rw [hinv.seq j, hi] at hitems
      simp only [ListSystem.erase, hnonempty, Bool.false_eq_true, if_false, update_self,
        hinv.seq j, hi, List.map_cons, List.tail_cons]
      exact hitems.trans List.perm_middle
    · simpa only [ListSystem.erase, hnonempty, Bool.false_eq_true, if_false,
        update_of_ne hj] using hinv.items j

/-- Nothing is taken from an empty list. -/
theorem ListInv.erase_empty (hinv : ListInv s nodes) (hi : nodes i = []) (thing : Item) :
    ListInv (s.erase i thing (s.list i) s.heap) nodes := by
  have hempty : (s.list i).isEmpty = true := (hinv.holds i).isEmpty_iff.2 hi
  have hseq : (s.seq i).tail = s.seq i := by rw [hinv.seq i, hi]; rfl
  have hsame : s.erase i thing (s.list i) s.heap = s := by
    simp only [ListSystem.erase, hempty, if_true, hseq, update_eq_self]
  rw [hsame]
  exact hinv

variable [Inhabited Item]

theorem listInv_erase {thing : Item} {key : Option ℤ} {l : LinkedList} {heap : ListHeap Item}
    (hinv : ListInv s nodes)
    (h : (s.list i).sortedRemove s.heap = .ok ((thing, key, l), heap)) :
    ∃ nodes', ListInv (s.erase i thing l heap) nodes' := by
  cases hi : nodes i with
  | nil =>
    rw [LinkedList.sortedRemove_empty (hi ▸ hinv.holds i)] at h
    cases h
    exact ⟨nodes, hinv.erase_empty hi default⟩
  | cons m rest =>
    obtain ⟨l', hrun, hl⟩ := LinkedList.sortedRemove_run (hi ▸ hinv.holds i)
    rw [hrun] at h
    cases h
    exact ⟨_, hinv.erase hi hl⟩

theorem listInv_step {t : ListSystem ι Item} {e : ListEvent ι Item} (hinv : ListInv s nodes)
    (h : ListStep s e t) : ∃ nodes', ListInv t nodes' := by
  cases h with
  | @append i item element l heap hfree h =>
    obtain ⟨l', heap', hrun, hins⟩ := LinkedList.append_run (hinv.holds i) hfree item
    rw [hrun] at h
    cases h
    refine ⟨_, hinv.insert (x := ⟨(element, item), 0⟩) hfree hins ?_⟩
    rw [List.map_append, hinv.seq i]
    rfl
  | @prepend i item element l heap hfree h =>
    obtain ⟨l', heap', hrun, hins⟩ := LinkedList.prepend_run (hinv.holds i) hfree item
    rw [hrun] at h
    cases h
    refine ⟨_, hinv.insert (x := ⟨(element, item), 0⟩) hfree hins ?_⟩
    rw [List.map_cons, hinv.seq i]
    rfl
  | @sortedInsert i item sortKey fuel element l heap hfree h =>
    obtain ⟨l', heap', hrun, hins⟩ := LinkedList.sortedInsert_run (hinv.holds i) hfree item sortKey
      (le_max_right fuel (nodes i).length)
    rw [LinkedList.sortedInsert_mono (le_max_left _ _) h] at hrun
    cases hrun
    refine ⟨_, hinv.insert (x := ⟨(element, item), sortKey⟩) hfree hins ?_⟩
    rw [hinv.seq i]
    exact (map_sortedInsert Prod.snd (element, item) sortKey (nodes i)).symm
  | @remove i thing l heap h =>
    obtain ⟨⟨thing', key, l'⟩, heap', hrun, hret⟩ := bind_eq_ok.1 h
    cases hret
    exact listInv_erase hinv hrun
  | @sortedRemove i thing key l heap h => exact listInv_erase hinv h

theorem ListReach.inv (h : ListReach s) : ∃ nodes, ListInv s nodes :=
  Transition.Reach.invariant (I := fun s : ListSystem ι Item => ∃ nodes, ListInv s nodes)
    (fun _ h0 => ⟨_, listInv_init h0⟩) (fun _ _ _ ⟨_, hinv⟩ hst => listInv_step hinv hst) h

end invariant

/-- **The linked list is a sequence.** After every run, for every list:
* `Apply` comes to the elements of the sequence, in order, and ends; the last of them is what `last`
  points to, and `first` is `NULL` iff there are none;
* `Append` and `Prepend` return, and so does `SortedInsert`, with turns enough; in a sorted
  sequence it keeps the order, behind the elements with the same key;
* `SortedRemove` returns the first item and its key, and `Remove` the item; from an empty list they
  take nothing;
* the items inserted are those removed and those in the list. -/
theorem linked_list_sequence [DecidableEq ι] [Inhabited Item] {s : ListSystem ι Item}
    (h : ListReach s) (i : ι) :
    (∃ visited : List (ℕ × ListElement Item),
      (∀ fuel, visited.length ≤ fuel →
        LinkedList.applyLoop s.heap fuel (s.list i).first = .ok visited) ∧
      visited.map (fun p => (⟨p.2.item, p.2.key⟩ : Node Item ℤ)) = s.seq i ∧
      (visited.map Prod.fst).Nodup ∧
      (s.list i).last = visited.getLast?.map Prod.fst) ∧
    ((s.list i).first = none ↔ s.seq i = []) ∧
    (∀ element item, s.heap element = none →
      (∃ l heap, (s.list i).append element item s.heap = .ok (l, heap)) ∧
      (∃ l heap, (s.list i).prepend element item s.heap = .ok (l, heap)) ∧
      ∀ sortKey, ∃ l heap, ∀ fuel, (s.seq i).length ≤ fuel →
        (s.list i).sortedInsert fuel element item sortKey s.heap = .ok (l, heap)) ∧
    (∀ item sortKey, Sorted (s.seq i) → Sorted (sortedInsert item sortKey (s.seq i)) ∧
      ∃ before after, s.seq i = before ++ after ∧
        sortedInsert item sortKey (s.seq i) = before ++ ⟨item, sortKey⟩ :: after ∧
        (∀ node ∈ before, node.key ≤ sortKey) ∧ ∀ node ∈ after, sortKey < node.key) ∧
    (∀ node rest, s.seq i = node :: rest → ∃ l heap,
      (s.list i).sortedRemove s.heap = .ok ((node.item, some node.key, l), heap) ∧
      (s.list i).remove s.heap = .ok ((node.item, l), heap)) ∧
    (s.seq i = [] →
      (s.list i).sortedRemove s.heap = .ok ((default, none, s.list i), s.heap) ∧
      (s.list i).remove s.heap = .ok ((default, s.list i), s.heap)) ∧
    (s.inserted i).Perm (s.removed i ++ (s.seq i).map Node.item) := by
  obtain ⟨nodes, hinv⟩ := h.inv
  have hh := hinv.holds i
  have hseq := hinv.seq i
  refine ⟨?_, ?_, fun element item hfree => ⟨?_, ?_, fun sortKey => ?_⟩,
    fun item sortKey hsorted => ⟨hsorted.sortedInsert item sortKey,
      sortedInsert_split item sortKey hsorted⟩, fun node rest hnode => ?_, fun hempty => ?_,
    hinv.items i⟩
  · obtain ⟨visited, hrun, haddr, hcontent⟩ := LinkedList.applyLoop_run hh.linked
    have hlen : visited.length = (nodes i).length := by
      simpa only [List.length_map] using congrArg List.length haddr
    refine ⟨visited, fun fuel hfuel => ?_, hcontent.trans hseq.symm, haddr ▸ hh.nodup, ?_⟩
    · rw [hh.first]
      exact hrun fuel (hlen ▸ hfuel)
    · rw [hh.last, ← List.getLast?_map, ← List.getLast?_map, haddr]
  · rw [hh.first, hseq]
    cases nodes i <;> simp [start]
  · obtain ⟨l, heap, hrun, -⟩ := LinkedList.append_run hh hfree item
    exact ⟨l, heap, hrun⟩
  · obtain ⟨l, heap, hrun, -⟩ := LinkedList.prepend_run hh hfree item
    exact ⟨l, heap, hrun⟩
  · obtain ⟨l, heap, hrun, -⟩ := LinkedList.sortedInsert_run hh hfree item sortKey le_rfl
    refine ⟨l, heap, fun fuel hfuel => LinkedList.sortedInsert_mono ?_ hrun⟩
    rwa [hseq, List.length_map] at hfuel
  · rw [hseq] at hnode
    obtain ⟨m, rest', hnodes, hm, -⟩ := List.map_eq_cons_iff.1 hnode
    obtain ⟨l, hrun, -⟩ := LinkedList.sortedRemove_run (hnodes ▸ hh)
    subst hm
    refine ⟨l, _, hrun, ?_⟩
    unfold LinkedList.remove
    rw [bind_run hrun]
    rfl
  · rw [hseq, List.map_eq_nil_iff] at hempty
    have hrun := LinkedList.sortedRemove_empty (hempty ▸ hh)
    refine ⟨hrun, ?_⟩
    unfold LinkedList.remove
    rw [bind_run hrun]
    rfl

/-- Items with the keys 5, 5 and 2 are inserted, one is appended and one removed. -/
theorem linked_list_sequence_five : ∃ s : ListSystem Unit ℕ, ListReach s ∧
    s.seq () = [⟨10, 5⟩, ⟨11, 5⟩, ⟨13, 0⟩] ∧
    ∃ visited : List (ℕ × ListElement ℕ),
      LinkedList.applyLoop s.heap 3 (s.list ()).first = .ok visited ∧
      visited.map (fun p => p.2.item) = [10, 11, 13] := by
  have h₀ : ListReach (⟨fun _ => none, fun _ => .new, fun _ => [], fun _ => [], fun _ => []⟩ :
      ListSystem Unit ℕ) := .init rfl
  have h₁ := h₀.step (.sortedInsert () 10 5)
    (@ListStep.sortedInsert _ _ _ _ _ () 10 5 3 0 _ _ rfl rfl)
  have h₂ := h₁.step (.sortedInsert () 11 5)
    (@ListStep.sortedInsert _ _ _ _ _ () 11 5 3 1 _ _ rfl rfl)
  have h₃ := h₂.step (.sortedInsert () 12 2)
    (@ListStep.sortedInsert _ _ _ _ _ () 12 2 3 2 _ _ rfl rfl)
  have h₄ := h₃.step (.append () 13) (@ListStep.append _ _ _ _ _ () 13 3 _ _ rfl rfl)
  have h₅ := h₄.step (.remove ()) (.remove rfl)
  obtain ⟨s, hs, hfive⟩ : ∃ s : ListSystem Unit ℕ, ListReach s ∧
      s.seq () = [⟨10, 5⟩, ⟨11, 5⟩, ⟨13, 0⟩] := ⟨_, h₅, rfl⟩
  obtain ⟨⟨visited, hrun, hseq, -⟩, -⟩ := linked_list_sequence hs ()
  rw [hfive] at hseq
  have hlen : visited.length = 3 := by
    rw [← List.length_map, hseq]
    rfl
  have hitems := congrArg (List.map Node.item) hseq
  rw [List.map_map] at hitems
  exact ⟨s, hs, hfive, visited, hrun 3 hlen.le, hitems⟩

end Nachos
