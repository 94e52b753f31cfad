import Mathlib
import Nachos.Lib.Amd64
import Nachos.Lib.Transition
import Nachos.Lib.Update

/-!
# `threads/switch.s` and `Thread::StackAllocate`

The context switch, for AMD64.  `SWITCH(t1, t2)` saves all general registers and the return address
in the object of `t1`, fetches those of `t2`, and returns on the stack of `t2`.  `StackAllocate`
makes the object of a new thread look as if the thread had called `SWITCH` from `ThreadRoot`.

* `switch_transparent`: in every run of any number of threads, a thread comes back from `SWITCH`
  with the registers and the stack that it had when it called it.
* `forked_thread_calls`: a new thread enables interrupts, calls its function with its argument, and
  then `ThreadFinish`.

A thread is known by the address of its object.  The threads write to their own objects and stacks,
and to memory that no other thread has there.
-/

namespace Nachos

open Amd64 Function Update Transition

/-! ### The code -/

/-- The offsets of the registers from the beginning of the thread object. -/
def offset : Reg → Word
  | .rsp => 0
  | .rax => 8
  | .rbx => 16
  | .rcx => 24
  | .rdx => 32
  | .rbp => 40
  | .rsi => 48
  | .rdi => 56
  | .r8 => 72
  | .r9 => 80
  | .r10 => 88
  | .r11 => 96
  | .r12 => 104
  | .r13 => 112
  | .r14 => 120
  | .r15 => 128

/-- `_PC`. -/
def pcOffset : Word := 64

/-- The registers that are saved before and after the return address. -/
def savedFirst : List Reg := [.rax, .rbx, .rcx, .rdx, .rsi, .rdi, .rbp, .rsp]

@[inherit_doc savedFirst]
def savedLast : List Reg := [.r8, .r9, .r10, .r11, .r12, .r13, .r14, .r15]

/-- The first half of `SWITCH`. -/
def saveOps : List Op :=
  stores offset .rdi savedFirst ++
    -- get return address from stack into rax, save it into the pc storage
    [.load 0 .rsp .rax, .store .rax pcOffset .rdi] ++
    stores offset .rdi savedLast

/-- The registers that are restored first. -/
def fetched : List Reg :=
  [.rbx, .rcx, .rdx, .rdi, .rbp, .rsp, .r8, .r9, .r10, .r11, .r12, .r13, .r14, .r15]

/-- The rest of `SWITCH`. -/
def returnOps : List Op :=
  [.load pcOffset .rsi .rax,            -- restore return address into eax
    .store .rax 0 .rsp,                 -- copy over the ret address on the stack
    .move .rsi .rax,
    .load (offset .rsi) .rsi .rsi,      -- replace rsi with stored value
    .load (offset .rax) .rax .rax]      -- use t2 pointer previously saved in rax

/-- `SWITCH`, up to its `ret`. -/
def switchOps : List Op := saveOps ++ loads offset .rsi fetched ++ returnOps

/-- `ThreadRoot`. -/
def threadRootCode : List Instr :=
  [.op (.push .rbp),
    .op (.move .rsp .rbp),
    .op (.push .rdi),
    .op (.push .rsi),
    .call .rax,                         -- `StartupPC ()`
    .op (.move .rbx .rdi),
    .op (.pop .rsi),
    .call .rsi,                         -- `InitialPC (InitialArg)`
    .op (.pop .rsi),
    .call .rsi,                         -- `WhenDonePC ()`
    .op (.move .rbp .rsp),              -- not reached
    .op (.pop .rbp),
    .ret]

/-- Where the linker has put the code that a new thread starts with. -/
structure SwitchImage where
  threadRoot : Word
  interruptEnable : Word
  threadFinish : Word

/-- `StackSize`, in words. -/
abbrev StackSize : ℕ := 4 * 1024

/-- `STACK_FENCEPOST`. -/
def stackFencepost : Word := 0xdeadbeef

/-- The words of a stack. -/
def stackWords (stack : Word) : Set Word := {a | ∃ i < StackSize, a = stack + 8 * BitVec.ofNat 64 i}

/-- `stackTop`, after `ThreadRoot` has been pushed. -/
def stackTop (stack : Word) : Word := stack + 8 * BitVec.ofNat 64 (StackSize - 5)

/-- `Thread::StackAllocate`, with the stack that was allocated; `machineState[i]` is the word at
`8 * (i + 1)` of the object. -/
def stackAllocate (image : SwitchImage) (thread stack func arg : Word) (mem : Word → Word) :
    Word → Word :=
  let mem := update mem (stackTop stack) image.threadRoot
  let mem := update mem stack stackFencepost
  let mem := update mem (thread + offset .rsp) (stackTop stack)
  let mem := update mem (thread + pcOffset) image.threadRoot
  let mem := update mem (thread + offset .rax) image.interruptEnable
  let mem := update mem (thread + offset .rsi) func
  let mem := update mem (thread + offset .rbx) arg
  update mem (thread + offset .rdi) image.threadFinish

/-! ### What `SWITCH` does -/

theorem offset_injective : Function.Injective offset := by
  intro r r' h
  cases r <;> cases r' <;> first | rfl | exact absurd h (by decide)

theorem offset_ne_pc (r : Reg) : offset r ≠ pcOffset := by
  cases r <;> decide

/-- The words of a thread object that `SWITCH` uses. -/
def fields (t : Word) : Set Word := {a | (∃ r, a = t + offset r) ∨ a = t + pcOffset}

theorem offset_mem_fields (t : Word) (r : Reg) : t + offset r ∈ fields t := Or.inl ⟨r, rfl⟩

theorem pc_mem_fields (t : Word) : t + pcOffset ∈ fields t := Or.inr rfl

theorem not_mem_fields {t a : Word} (h : a ∉ fields t) :
    (∀ r, a ≠ t + offset r) ∧ a ≠ t + pcOffset :=
  ⟨fun r hr => h (Or.inl ⟨r, hr⟩), fun hp => h (Or.inr hp)⟩

/-- The first half saves the registers and the return address, and changes nothing else. -/
theorem save_exec {c : Core} (hsp : c.regs .rsp ∉ fields (c.regs .rdi)) :
    (∀ r, r ≠ .rax → (execOps saveOps c).regs r = c.regs r) ∧
      (∀ r, (execOps saveOps c).mem (c.regs .rdi + offset r) = c.regs r) ∧
      (execOps saveOps c).mem (c.regs .rdi + pcOffset) = c.mem (c.regs .rsp) ∧
      ∀ a ∉ fields (c.regs .rdi), (execOps saveOps c).mem a = c.mem a := by
  -- after the first stores, and after the return address has been saved
  obtain ⟨c₁, hc₁⟩ : ∃ c₁, c₁ = execOps (stores offset .rdi savedFirst) c := ⟨_, rfl⟩
  obtain ⟨c₂, hc₂⟩ : ∃ c₂ : Core, c₂ = ⟨update c.regs .rax (c.mem (c.regs .rsp)),
    update c₁.mem (c.regs .rdi + pcOffset) (c.mem (c.regs .rsp))⟩ := ⟨_, rfl⟩
  have hregs₁ : c₁.regs = c.regs := by
    rw [hc₁]
    exact execOps_stores_regs _ c
  have hother₁ : ∀ a ∉ fields (c.regs .rdi), c₁.mem a = c.mem a := fun a ha => by
    rw [hc₁]
    exact execOps_stores_of_not_mem fun r _ => (not_mem_fields ha).1 r
  have hexec : execOps saveOps c = execOps (stores offset .rdi savedLast) c₂ := by
    unfold saveOps
    rw [execOps_append, execOps_append, ← hc₁, hc₂]
    refine congrArg _ ?_
    simp [execOps, Op.exec, hregs₁, hother₁ _ hsp]
  have hrdi : c₂.regs .rdi = c.regs .rdi := by
    rw [hc₂]
    rfl
  have hpc : ∀ r, c.regs .rdi + pcOffset ≠ c.regs .rdi + offset r := fun r heq =>
    offset_ne_pc r ((BitVec.add_right_inj _).1 heq).symm
  rw [hexec, execOps_stores_regs]
  refine ⟨fun r hr => ?_, fun r => ?_, ?_, fun a ha => ?_⟩
  · rw [hc₂]
    exact update_of_ne hr _ _
  · by_cases hlast : r ∈ savedLast
    · have hsave : (execOps (stores offset .rdi savedLast) c₂).mem (c₂.regs .rdi + offset r) =
          c₂.regs r := execOps_stores_of_mem offset_injective hlast
      rw [hrdi] at hsave
      rw [hsave, hc₂]
      refine update_of_ne ?_ _ _
      rintro rfl
      exact absurd hlast (by decide)
    · have hfirst : r ∈ savedFirst := by
        cases r <;> first | decide | exact absurd (by decide) hlast
      rw [execOps_stores_of_not_mem fun r' hr' heq => hlast ?_, hc₂]
      · refine (update_of_ne (hpc r).symm _ _).trans ?_
        rw [hc₁]
        exact execOps_stores_of_mem offset_injective hfirst
      · rw [hrdi] at heq
        rwa [offset_injective ((BitVec.add_right_inj _).1 heq)]
  · rw [execOps_stores_of_not_mem fun r _ => by rw [hrdi]; exact hpc r, hc₂]
    exact update_self ..
  · obtain ⟨hoffset, hne⟩ := not_mem_fields ha
    rw [execOps_stores_of_not_mem fun r _ => by rw [hrdi]; exact hoffset r, hc₂]
    exact (update_of_ne hne _ _).trans (hother₁ a ha)

/-- What `SWITCH` has done before its `ret`. -/
structure SwitchDone (t1 t2 : Word) (c c' : Core) : Prop where
  regs : ∀ r, c'.regs r = c.mem (t2 + offset r)
  saved : ∀ r, c'.mem (t1 + offset r) = c.regs r
  savedPC : c'.mem (t1 + pcOffset) = c.mem (c.regs .rsp)
  top : c'.mem (c.mem (t2 + offset .rsp)) = c.mem (t2 + pcOffset)
  others : ∀ a ∉ fields t1, a ≠ c.mem (t2 + offset .rsp) → c'.mem a = c.mem a

theorem switch_exec {c : Core} {t1 t2 : Word} (h1 : c.regs .rdi = t1) (h2 : c.regs .rsi = t2)
    (hdis : Disjoint (fields t1) (fields t2)) (hsp : c.regs .rsp ∉ fields t1)
    (htop : c.mem (t2 + offset .rsp) ∉ fields t1 ∪ fields t2) :
    SwitchDone t1 t2 c (execOps switchOps c) := by
  subst h1 h2
  obtain ⟨hregs, hsaved, hpc, hothers⟩ := save_exec hsp
  obtain ⟨c₁, hc₁⟩ : ∃ c₁, c₁ = execOps saveOps c := ⟨_, rfl⟩
  obtain ⟨c₂, hc₂⟩ : ∃ c₂, c₂ = execOps (loads offset .rsi fetched) c₁ := ⟨_, rfl⟩
  rw [← hc₁] at hregs hsaved hpc hothers
  -- the object of the other thread has not changed, and the registers come from there
  have hrsi₁ : c₁.regs .rsi = c.regs .rsi := hregs _ (by decide)
  have hfield : ∀ a ∈ fields (c.regs .rsi), c₁.mem a = c.mem a := fun a ha =>
    hothers a fun ha' => Set.disjoint_left.1 hdis ha' ha
  have hmem₂ : c₂.mem = c₁.mem := by
    rw [hc₂]
    exact execOps_loads_mem _ c₁
  have hfetched : ∀ r ∈ fetched, c₂.regs r = c.mem (c.regs .rsi + offset r) := by
    intro r hr
    have hload : c₂.regs r = c₁.mem (c₁.regs .rsi + offset r) := by
      rw [hc₂]
      exact execOps_loads_of_mem (by decide) hr
    rw [hload, hrsi₁, hfield _ (offset_mem_fields _ r)]
  have hrsi₂ : c₂.regs .rsi = c.regs .rsi := by
    rw [hc₂, execOps_loads_of_not_mem (by decide), hrsi₁]
  have hrsp₂ := hfetched .rsp (by decide)
  obtain ⟨htop₁, htop₂⟩ := not_or.1 htop
  obtain ⟨c₃, hc₃⟩ : ∃ c₃, c₃ = execOps switchOps c := ⟨_, rfl⟩
  have hexec : c₃ = execOps returnOps c₂ := by
    rw [hc₃, hc₂, hc₁, ← execOps_append, ← execOps_append]
    rfl
  have hmem : c₃.mem = update c₁.mem (c.mem (c.regs .rsi + offset .rsp))
      (c.mem (c.regs .rsi + pcOffset)) := by
    rw [hexec]
    simp [execOps, returnOps, Op.exec, hrsp₂, hrsi₂, hmem₂, hfield _ (pc_mem_fields _)]
  have hkept : ∀ a ∈ fields (c.regs .rsi), c₃.mem a = c.mem a := by
    intro a ha
    rw [hmem, update_of_ne (ne_of_mem_of_not_mem ha htop₂), hfield a ha]
  have hregs₃ : c₃.regs = update (update c₂.regs .rsi
      (c₃.mem (c.regs .rsi + offset .rsi))) .rax (c₃.mem (c.regs .rsi + offset .rax)) := by
    rw [hexec]
    funext r
    cases r <;> simp [execOps, returnOps, Op.exec, hrsi₂]
  rw [← hc₃]
  refine ⟨fun r => ?_, fun r => ?_, ?_, ?_, fun a ha hne => ?_⟩
  · rw [hregs₃, hkept _ (offset_mem_fields _ _), hkept _ (offset_mem_fields _ _)]
    by_cases hrax : r = .rax
    · rw [hrax, update_self]
    rw [update_of_ne hrax]
    by_cases hrsi : r = .rsi
    · rw [hrsi, update_self]
    rw [update_of_ne hrsi]
    exact hfetched r (by cases r <;> first | decide | contradiction)
  · rw [hmem, update_of_ne (ne_of_mem_of_not_mem (offset_mem_fields _ r) htop₁), hsaved]
  · rw [hmem, update_of_ne (ne_of_mem_of_not_mem (pc_mem_fields _) htop₁), hpc]
  · rw [hmem, update_self]
  · rw [hmem, update_of_ne hne, hothers a ha]

/-! ### Threads -/

/-- What a thread that is not running has left behind: its registers when it called `SWITCH`, where
the call returns to, and what was in memory then.  A new thread has a function and its argument. -/
structure LeftBehind where
  regs : Reg → Word
  ret : Word
  stack : Word → Word
  forked : Option (Word × Word)

/-- The machine, `currentThread`, the stacks of the threads that there are, and what those that are
not running have left behind. -/
structure SwitchState where
  mach : Mach
  current : Word
  stackOf : Word → Option (Set Word)
  left : Word → Option LeftBehind

/-- What the threads do. -/
inductive SwitchEvent
  | work
  | switch (t : Word)
  | fork (t stack func arg : Word)
  | delete (t : Word)

/-- The object of a thread and its stack. -/
def area (t : Word) (stack : Set Word) : Set Word := fields t ∪ stack

namespace SwitchState

/-- `SWITCH`, to its end, on the thread `t`. -/
def switchTo (s : SwitchState) (t : Word) : SwitchState :=
  { s with
    mach := .ret (execOps switchOps s.mach.cpu)
    current := t
    left := update (update s.left s.current (some
      ⟨s.mach.cpu.regs, s.mach.cpu.mem (s.mach.cpu.regs .rsp), s.mach.cpu.mem, none⟩)) t none }

/-- `StackAllocate` for the new thread `t`. -/
def fork (image : SwitchImage) (s : SwitchState) (t stack func arg : Word) : SwitchState :=
  let mem := stackAllocate image t stack func arg s.mach.cpu.mem
  { s with
    mach := ⟨⟨s.mach.cpu.regs, mem⟩, s.mach.rip⟩
    stackOf := update s.stackOf t (some (stackWords stack))
    left := update s.left t (some
      ⟨fun r => mem (t + offset r), image.threadRoot, mem, some (func, arg)⟩) }

/-- `delete t`. -/
def delete (s : SwitchState) (t : Word) : SwitchState :=
  { s with
    stackOf := update s.stackOf t none
    left := update s.left t none }

end SwitchState

/-- The current thread has just called `SWITCH`, for a thread that is not running. -/
structure SwitchCall (s : SwitchState) (t : Word) : Prop where
  waits : s.left t ≠ none
  onStack : ∃ stk, s.stackOf s.current = some stk ∧ s.mach.cpu.regs .rsp ∈ stk
  rdi : s.mach.cpu.regs .rdi = s.current
  rsi : s.mach.cpu.regs .rsi = t

/-- The memory for a new thread, which no thread has. -/
structure FreshThread (s : SwitchState) (t stack : Word) : Prop where
  new : s.stackOf t = none
  fits : stack.toNat + 8 * StackSize ≤ 2 ^ 64
  own : Disjoint (fields t) (stackWords stack)
  apart : ∀ u stk, s.stackOf u = some stk → Disjoint (area t (stackWords stack)) (area u stk)

/-- A step of the current thread: any code that leaves the objects and stacks of the others alone; a
call of `SWITCH`; a new thread; and `delete` of another thread. -/
inductive SwitchStep (image : SwitchImage) (s : SwitchState) : SwitchEvent → SwitchState → Prop
  | work {mach : Mach} (h : ∀ u stk, u ≠ s.current → s.stackOf u = some stk →
        ∀ a ∈ area u stk, mach.cpu.mem a = s.mach.cpu.mem a) :
      SwitchStep image s .work { s with mach := mach }
  | switch {t : Word} (h : SwitchCall s t) : SwitchStep image s (.switch t) (s.switchTo t)
  | fork {t stack func arg : Word} (h : FreshThread s t stack) :
      SwitchStep image s (.fork t stack func arg) (s.fork image t stack func arg)
  | delete {t : Word} (h : t ≠ s.current) : SwitchStep image s (.delete t) (s.delete t)

/-- There is the main thread, and it is running. -/
def SwitchInit (s : SwitchState) : Prop :=
  (∃ stk, Disjoint (fields s.current) stk ∧
    s.stackOf = update (fun _ => none) s.current (some stk)) ∧ s.left = fun _ => none

/-- The object of a thread and its stack hold what it has left behind. -/
structure HoldsLeft (image : SwitchImage) (mem : Word → Word) (t : Word) (stk : Set Word)
    (l : LeftBehind) : Prop where
  regs : ∀ r, mem (t + offset r) = l.regs r
  pc : mem (t + pcOffset) = l.ret
  stack : ∀ a ∈ stk, mem a = l.stack a
  top : l.regs .rsp ∈ stk
  ret : l.stack (l.regs .rsp) = l.ret
  forked : ∀ func arg, l.forked = some (func, arg) → ∃ stack,
    stk = stackWords stack ∧ stack.toNat + 8 * StackSize ≤ 2 ^ 64 ∧
    l.ret = image.threadRoot ∧ l.regs .rsp = stackTop stack ∧
    l.regs .rax = image.interruptEnable ∧ l.regs .rsi = func ∧ l.regs .rbx = arg ∧
    l.regs .rdi = image.threadFinish

/-- The invariant of a run. -/
structure SwitchInv (image : SwitchImage) (s : SwitchState) : Prop where
  running : s.left s.current = none
  exists_current : ∃ stk, s.stackOf s.current = some stk
  own : ∀ t stk, s.stackOf t = some stk → Disjoint (fields t) stk
  apart : ∀ t u stk stk', t ≠ u → s.stackOf t = some stk → s.stackOf u = some stk' →
    Disjoint (area t stk) (area u stk')
  left : ∀ t l, s.left t = some l → ∃ stk, s.stackOf t = some stk ∧
    HoldsLeft image s.mach.cpu.mem t stk l

variable {image : SwitchImage} {s s' : SwitchState} {t : Word} {stk : Set Word} {l : LeftBehind}

theorem HoldsLeft.congr {mem mem' : Word → Word} (h : HoldsLeft image mem t stk l)
    (hmem : ∀ a ∈ area t stk, mem' a = mem a) : HoldsLeft image mem' t stk l where
  regs r := by rw [hmem _ (Or.inl (offset_mem_fields t r)), h.regs]
  pc := by rw [hmem _ (Or.inl (pc_mem_fields t)), h.pc]
  stack a ha := by rw [hmem a (Or.inr ha), h.stack a ha]
  top := h.top
  ret := h.ret
  forked := h.forked

/-! ### A call of `SWITCH` -/

theorem SwitchInv.call (h : SwitchInv image s) (hcall : SwitchCall s t) (hl : s.left t = some l) :
    SwitchDone s.current t s.mach.cpu (execOps switchOps s.mach.cpu) := by
  obtain ⟨stk, hstk, hholds⟩ := h.left t l hl
  obtain ⟨stk', hstk', hsp⟩ := hcall.onStack
  have hne : t ≠ s.current := by
    rintro rfl
    rw [h.running] at hl
    cases hl
  have hapart := h.apart _ _ _ _ hne hstk hstk'
  refine switch_exec hcall.rdi hcall.rsi ?_ ?_ ?_
  · exact (hapart.mono Set.subset_union_left Set.subset_union_left).symm
  · exact Set.disjoint_right.1 (h.own _ _ hstk') hsp
  · rw [hholds.regs]
    rintro (hmem | hmem)
    · exact Set.disjoint_left.1 hapart (Or.inr hholds.top) (Or.inl hmem)
    · exact Set.disjoint_left.1 (h.own _ _ hstk) hmem hholds.top

/-- `SWITCH` writes only to the object of its caller: on the stack of the other thread the return
address is there already. -/
theorem SwitchInv.kept (h : SwitchInv image s) (hl : s.left t = some l) {c' : Core}
    (hdone : SwitchDone s.current t s.mach.cpu c') {u a : Word} (hstk : s.stackOf u = some stk)
    (ha : a ∈ stk ∨ u ≠ s.current ∧ a ∈ area u stk) : c'.mem a = s.mach.cpu.mem a := by
  obtain ⟨stkT, hstkT, hholds⟩ := h.left t l hl
  obtain ⟨stk', hstk'⟩ := h.exists_current
  by_cases htop : a = s.mach.cpu.mem (t + offset .rsp)
  · rw [htop, hdone.top, hholds.pc, hholds.regs, hholds.stack _ hholds.top, hholds.ret]
  · refine hdone.others a (fun hfield => ?_) htop
    by_cases hu : u = s.current
    · subst hu
      exact Set.disjoint_left.1 (h.own _ _ hstk) hfield
        (ha.resolve_right fun hne => hne.1 rfl)
    · have hmem : a ∈ area u stk := ha.elim Or.inr And.right
      exact Set.disjoint_left.1 (h.apart _ _ _ _ hu hstk hstk') hmem (Or.inl hfield)

/-- The thread that is switched to goes on as it was. -/
theorem SwitchInv.resumed (h : SwitchInv image s) (hcall : SwitchCall s t)
    (hl : s.left t = some l) :
    (s.switchTo t).mach.rip = l.ret ∧
      (s.switchTo t).mach.cpu.regs = update l.regs .rsp (l.regs .rsp + 8) ∧
      ∀ stk, s.stackOf t = some stk → ∀ a ∈ stk, (s.switchTo t).mach.cpu.mem a = l.stack a := by
  obtain ⟨stk, hstk, hholds⟩ := h.left t l hl
  have hdone := h.call hcall hl
  obtain ⟨c', hc'⟩ : ∃ c', c' = execOps switchOps s.mach.cpu := ⟨_, rfl⟩
  rw [SwitchState.switchTo, ← hc']
  rw [← hc'] at hdone
  have hregs : c'.regs = l.regs := by
    funext r
    rw [hdone.regs, hholds.regs]
  refine ⟨?_, ?_, fun stk' hstk' a ha => ?_⟩
  · show c'.mem (c'.regs .rsp) = l.ret
    rw [hregs, ← hholds.regs, hdone.top, hholds.pc]
  · show update c'.regs .rsp (c'.regs .rsp + 8) = _
    rw [hregs]
  · rw [hstk] at hstk'
    cases hstk'
    exact (h.kept hl hdone hstk (Or.inl ha)).trans (hholds.stack a ha)

/-! ### A new thread -/

theorem stackTop_mem (stack : Word) : stackTop stack ∈ stackWords stack :=
  ⟨StackSize - 5, by decide, rfl⟩

theorem stack_mem (stack : Word) : stack ∈ stackWords stack := ⟨0, by decide, by simp⟩

theorem stackTop_ne (stack : Word) : stackTop stack ≠ stack := by
  intro h
  have hzero : 8 * BitVec.ofNat 64 (StackSize - 5) = 0#64 := by
    refine (BitVec.add_right_inj stack).1 ?_
    rw [BitVec.add_zero]
    exact h
  exact absurd hzero (by decide)

/-- What `StackAllocate` writes. -/
theorem stackAllocate_apply {stack func arg : Word} {mem mem' : Word → Word}
    (h : mem' = stackAllocate image t stack func arg mem)
    (hown : Disjoint (fields t) (stackWords stack)) :
    (∀ a ∉ area t (stackWords stack), mem' a = mem a) ∧
      mem' (stackTop stack) = image.threadRoot ∧ mem' (t + pcOffset) = image.threadRoot ∧
      mem' (t + offset .rsp) = stackTop stack ∧ mem' (t + offset .rax) = image.interruptEnable ∧
      mem' (t + offset .rsi) = func ∧ mem' (t + offset .rbx) = arg ∧
      mem' (t + offset .rdi) = image.threadFinish := by
  have htop := Set.disjoint_right.1 hown (stackTop_mem stack)
  have hfield : ∀ r, stackTop stack ≠ t + offset r := fun r =>
    (ne_of_mem_of_not_mem (offset_mem_fields t r) htop).symm
  have hpcField : stackTop stack ≠ t + pcOffset :=
    (ne_of_mem_of_not_mem (pc_mem_fields t) htop).symm
  have hpc : ∀ r, pcOffset ≠ offset r := fun r => (offset_ne_pc r).symm
  subst h
  unfold stackAllocate
  refine ⟨fun a ha => ?_, ?_, ?_, ?_, ?_, ?_, ?_, ?_⟩
  · obtain ⟨hfields, hstack⟩ := not_or.1 ha
    obtain ⟨hoffset, hne⟩ := not_mem_fields hfields
    have htop : a ≠ stackTop stack := fun heq => hstack (heq ▸ stackTop_mem stack)
    have hbase : a ≠ stack := fun heq => hstack (heq ▸ stack_mem stack)
    simp only [ne_eq, hoffset, hne, htop, hbase, not_false_eq_true, update_of_ne]
  · simp only [ne_eq, hfield, hpcField, stackTop_ne, not_false_eq_true, update_of_ne,
      update_self]
  all_goals simp [offset_injective.eq_iff, offset_ne_pc, hpc]

/-! ### Every run keeps the invariant -/

namespace SwitchInv

theorem init (h : SwitchInit s) : SwitchInv image s := by
  obtain ⟨⟨stk, hown, hstk⟩, hleft⟩ := h
  have honly : ∀ u stk', s.stackOf u = some stk' → u = s.current ∧ stk' = stk := by
    intro u stk' hu
    rw [hstk] at hu
    rcases update_cases hu with ⟨hu, hstk'⟩ | ⟨-, hnone⟩
    · exact ⟨hu, Option.some.inj hstk'⟩
    · cases hnone
  refine ⟨by rw [hleft], ⟨stk, by rw [hstk, update_self]⟩, fun u stk' hu => ?_,
    fun u v _ _ hne hu hv => ?_, fun u l hl => ?_⟩
  · obtain ⟨rfl, rfl⟩ := honly u stk' hu
    exact hown
  · exact absurd ((honly u _ hu).1.trans (honly v _ hv).1.symm) hne
  · rw [hleft] at hl
    cases hl

theorem work (h : SwitchInv image s) {mach : Mach}
    (hmem : ∀ u stk, u ≠ s.current → s.stackOf u = some stk →
      ∀ a ∈ area u stk, mach.cpu.mem a = s.mach.cpu.mem a) :
    SwitchInv image { s with mach := mach } := by
  refine ⟨h.running, h.exists_current, h.own, h.apart, fun t l hl => ?_⟩
  obtain ⟨stk, hstk, hholds⟩ := h.left t l hl
  refine ⟨stk, hstk, hholds.congr (hmem t stk ?_ hstk)⟩
  rintro rfl
  have hnone := h.running
  rw [hl] at hnone
  cases hnone

theorem switch (h : SwitchInv image s) (hcall : SwitchCall s t) :
    SwitchInv image (s.switchTo t) := by
  obtain ⟨l, hl⟩ := Option.ne_none_iff_exists'.1 hcall.waits
  have hdone := h.call hcall hl
  obtain ⟨stkT, hstkT, -⟩ := h.left t l hl
  obtain ⟨stk', hstk', hsp⟩ := hcall.onStack
  refine ⟨update_self .., ⟨stkT, hstkT⟩, h.own, h.apart, fun u lu hlu => ?_⟩
  rcases update_cases hlu with ⟨-, hnone⟩ | ⟨hut, hlu⟩
  · cases hnone
  rcases update_cases hlu with ⟨rfl, hnew⟩ | ⟨huc, hold⟩
  · -- the thread that has called `SWITCH`
    cases hnew
    exact ⟨stk', hstk', hdone.saved, hdone.savedPC, fun a ha => h.kept hl hdone hstk' (Or.inl ha),
      hsp, rfl, fun _ _ hf => by cases hf⟩
  · obtain ⟨stk, hstk, hholds⟩ := h.left u lu hold
    exact ⟨stk, hstk, hholds.congr fun a ha => h.kept hl hdone hstk (Or.inr ⟨huc, ha⟩)⟩

theorem fork (h : SwitchInv image s) {stack func arg : Word} (hfresh : FreshThread s t stack) :
    SwitchInv image (s.fork image t stack func arg) := by
  obtain ⟨mem, hmem⟩ : ∃ mem, mem = stackAllocate image t stack func arg s.mach.cpu.mem := ⟨_, rfl⟩
  obtain ⟨hothers, htop, hpc, hrsp, hrax, hrsi, hrbx, hrdi⟩ := stackAllocate_apply hmem hfresh.own
  rw [SwitchState.fork, ← hmem]
  have hne : ∀ u stk, s.stackOf u = some stk → u ≠ t := by
    rintro u stk hu rfl
    rw [hfresh.new] at hu
    cases hu
  obtain ⟨stkC, hstkC⟩ := h.exists_current
  refine ⟨?_, ⟨stkC, ?_⟩, fun u stk hu => ?_, fun u v stk stk' huv hu hv => ?_, fun u l hl => ?_⟩
  · exact (update_of_ne (hne _ _ hstkC) _ _).trans h.running
  · exact (update_of_ne (hne _ _ hstkC) _ _).trans hstkC
  · rcases update_cases hu with ⟨rfl, hstk⟩ | ⟨-, hold⟩
    · cases hstk
      exact hfresh.own
    · exact h.own u stk hold
  · rcases update_cases hu with ⟨rfl, hstk⟩ | ⟨-, holdU⟩
    · cases hstk
      exact hfresh.apart v stk' (update_cases hv |>.resolve_left fun hv => huv hv.1.symm).2
    · rcases update_cases hv with ⟨rfl, hstk⟩ | ⟨-, holdV⟩
      · cases hstk
        exact (hfresh.apart u stk holdU).symm
      · exact h.apart u v stk stk' huv holdU holdV
  · rcases update_cases hl with ⟨rfl, hnew⟩ | ⟨hut, hold⟩
    · cases hnew
      refine ⟨stackWords stack, update_self .., fun _ => rfl, hpc, fun _ _ => rfl, ?_, ?_,
        fun _ _ hf => ?_⟩
      · show mem (u + offset .rsp) ∈ _
        rw [hrsp]
        exact stackTop_mem stack
      · show mem (mem (u + offset .rsp)) = _
        rw [hrsp, htop]
      · cases hf
        exact ⟨stack, rfl, hfresh.fits, rfl, hrsp, hrax, hrsi, hrbx, hrdi⟩
    · obtain ⟨stk, hstk, hholds⟩ := h.left u l hold
      refine ⟨stk, (update_of_ne hut _ _).trans hstk, hholds.congr fun a ha => ?_⟩
      exact hothers a fun ha' => Set.disjoint_left.1 (hfresh.apart u stk hstk) ha' ha

theorem delete (h : SwitchInv image s) (ht : t ≠ s.current) : SwitchInv image (s.delete t) := by
  have hold : ∀ {β : Type} {f : Word → Option β} {u : Word} {x : β},
      update f t none u = some x → u ≠ t ∧ f u = some x := fun hu =>
    of_update_eq hu (Option.some_ne_none _).symm
  obtain ⟨stk, hstk⟩ := h.exists_current
  refine ⟨(update_of_ne ht.symm _ _).trans h.running,
    ⟨stk, (update_of_ne ht.symm _ _).trans hstk⟩,
    fun u stk' hu => h.own u stk' (hold hu).2,
    fun u v _ _ huv hu hv => h.apart u v _ _ huv (hold hu).2 (hold hv).2, fun u l hl => ?_⟩
  obtain ⟨hut, hl⟩ := hold hl
  obtain ⟨stk', hstk', hholds⟩ := h.left u l hl
  exact ⟨stk', (update_of_ne hut _ _).trans hstk', hholds⟩

theorem step (h : SwitchInv image s) {e : SwitchEvent} (hst : SwitchStep image s e s') :
    SwitchInv image s' := by
  cases hst with
  | work hmem => exact h.work hmem
  | switch hcall => exact h.switch hcall
  | fork hfresh => exact h.fork hfresh
  | delete ht => exact h.delete ht

theorem reach (h : Reach SwitchInit (SwitchStep image) s) : SwitchInv image s :=
  h.invariant (fun _ => init) fun _ _ _ hinv hst => hinv.step hst

end SwitchInv

section forkedOnce

/-- The main thread, which is about to call `SWITCH` for a thread that is not there yet.  The call
will return to 77. -/
def mainAlone : SwitchState where
  mach := ⟨⟨fun | .rsi => 1024 | .rsp => 512 | .rbx => 5 | _ => 0,
    fun a => if a = 512 then 77 else 0⟩, 0⟩
  current := 0
  stackOf := update (fun _ => none) 0 (some {512})
  left := fun _ => none

theorem mainAlone_fresh : FreshThread mainAlone 1024 4096 := by
  have hfields : ∀ a ∈ fields 1024, 1024 ≤ a ∧ a ≤ 1152 := by
    rintro a (⟨r, rfl⟩ | rfl)
    · cases r <;> decide
    · decide
  have hstack : ∀ a ∈ stackWords 4096, 4096 ≤ a := by
    rintro a ⟨i, hi, rfl⟩
    simp only [StackSize] at hi
    bv_omega
  refine ⟨rfl, by decide, Set.disjoint_left.2 fun a ha hb => ?_, fun u stk hu => ?_⟩
  · have h1 := (hfields a ha).2
    have h2 := hstack a hb
    bv_omega
  · have hu : update (fun _ => none) 0 (some {512}) u = some stk := hu
    rcases update_cases hu with ⟨rfl, hstk⟩ | ⟨-, hnone⟩
    · cases hstk
      refine Set.disjoint_left.2 fun a ha hb => ?_
      have hlow : 1024 ≤ a := by
        rcases ha with ha | ha
        · exact (hfields a ha).1
        · have h1 := hstack a ha
          bv_omega
      rcases hb with (⟨r, rfl⟩ | rfl) | rfl
      · exact absurd hlow (by cases r <;> decide)
      · exact absurd hlow (by decide)
      · exact absurd hlow (by decide)
    · cases hnone

variable (image)

/-- The main thread and a new one. -/
abbrev forkedOnce : SwitchState := mainAlone.fork image 1024 4096 7 9

theorem forkedOnce_reach : Reach SwitchInit (SwitchStep image) (forkedOnce image) := by
  refine .step _ (.init ⟨⟨{512}, ?_, rfl⟩, rfl⟩) (.fork mainAlone_fresh)
  rw [Set.disjoint_singleton_right]
  rintro (⟨r, hr⟩ | hpc)
  · exact absurd hr (by cases r <;> decide)
  · exact absurd hpc (by decide)

theorem forkedOnce_call : SwitchCall (forkedOnce image) 1024 :=
  ⟨Option.some_ne_none _, ⟨{512}, rfl, rfl⟩, rfl, rfl⟩

/-- The new thread runs, uses the registers, and calls `SWITCH` for the main thread. -/
abbrev calledBack : SwitchState :=
  { (forkedOnce image).switchTo 1024 with
    mach := ⟨⟨fun | .rdi => 1024 | .rsp => stackTop 4096 | _ => 0,
      ((forkedOnce image).switchTo 1024).mach.cpu.mem⟩, 0⟩ }

theorem calledBack_reach : Reach SwitchInit (SwitchStep image) (calledBack image) :=
  .step _ (.step _ (forkedOnce_reach image) (.switch (forkedOnce_call image)))
    (.work fun _ _ _ _ _ _ => rfl)

theorem calledBack_call : SwitchCall (calledBack image) 0 :=
  ⟨Option.some_ne_none _, ⟨stackWords 4096, rfl, stackTop_mem 4096⟩, rfl, rfl⟩

end forkedOnce

/-- **A thread comes back from `SWITCH` as it was.**  Any number of threads run, call `SWITCH`, are
forked and deleted, in any order, and each leaves alone what belongs to another.  Whenever the
current thread calls `SWITCH` for a thread that is not running, that thread goes on behind its own
call, with the registers that it had there and with the stack as it left it. -/
theorem switch_transparent (h : Reach SwitchInit (SwitchStep image) s) (hcall : SwitchCall s t)
    (hl : s.left t = some l) :
    (s.switchTo t).mach.rip = l.ret ∧
      (s.switchTo t).mach.cpu.regs = update l.regs .rsp (l.regs .rsp + 8) ∧
      ∀ stk, s.stackOf t = some stk → ∀ a ∈ stk, (s.switchTo t).mach.cpu.mem a = l.stack a :=
  (SwitchInv.reach h).resumed hcall hl

/-- The main thread comes back from its call, with its registers and its stack. -/
theorem switch_transparent_back :
    ((calledBack ⟨1, 2, 3⟩).switchTo 0).mach.rip = 77 ∧
      ((calledBack ⟨1, 2, 3⟩).switchTo 0).mach.cpu.regs =
        update mainAlone.mach.cpu.regs .rsp 520 ∧
      ((calledBack ⟨1, 2, 3⟩).switchTo 0).mach.cpu.mem 512 = 77 := by
  have hret : (forkedOnce ⟨1, 2, 3⟩).mach.cpu.mem 512 = 77 := by decide
  obtain ⟨hrip, hregs, hstack⟩ :=
    switch_transparent (calledBack_reach ⟨1, 2, 3⟩) (calledBack_call _) rfl
  exact ⟨hrip.trans hret, hregs, (hstack {512} rfl 512 rfl).trans hret⟩

/-! ### The beginning of a thread -/

theorem stackTop_sub {stack : Word} (hfits : stack.toNat + 8 * StackSize ≤ 2 ^ 64) :
    stackTop stack - 8 - 8 ∈ stackWords stack ∧ stackTop stack - 8 ∈ stackWords stack ∧
      stackTop stack - 8 - 8 ≤ stackTop stack - 8 ∧
      stackTop stack - 8 ≠ stackTop stack - 8 - 8 := by
  have h5 : stackTop stack = stack + 32728#64 := congrArg (stack + ·) (by decide)
  have h6 : 8 * BitVec.ofNat 64 (StackSize - 6) = 32720#64 := by decide
  have h7 : 8 * BitVec.ofNat 64 (StackSize - 7) = 32712#64 := by decide
  rw [h5]
  refine ⟨⟨StackSize - 7, by decide, ?_⟩, ⟨StackSize - 6, by decide, ?_⟩, ?_, ?_⟩
  · rw [h7]
    bv_omega
  · rw [h6]
    bv_omega
  · have hstack : stack.toNat + 32768 ≤ 2 ^ 64 := hfits
    bv_omega
  · bv_omega

/-- What `ThreadRoot` calls, on the stack that `StackAllocate` has made. -/
theorem threadRoot_calls {callee : Word → Core → Option Core} {c : Core} {stack : Word}
    (hfits : stack.toNat + 8 * StackSize ≤ 2 ^ 64) (hsp : c.regs .rsp = stackTop stack + 8)
    (habi : ∀ f c c', callee f c = some c' → Abi (stackWords stack) c c') :
    ∃ y, runCalls callee threadRootCode c <+:
        [(c.regs .rax, c.regs .rdi), (c.regs .rsi, c.regs .rbx), (c.regs .rdi, y)] ∧
      ((∀ c', callee (c.regs .rax) c' ≠ none) → (∀ c', callee (c.regs .rsi) c' ≠ none) →
        runCalls callee threadRootCode c =
          [(c.regs .rax, c.regs .rdi), (c.regs .rsi, c.regs .rbx), (c.regs .rdi, y)]) := by
  obtain ⟨hmem₂, hmem₁, hle, hne⟩ := stackTop_sub hfits
  obtain ⟨T, hT⟩ : ∃ T, T = stackTop stack := ⟨_, rfl⟩
  rw [← hT] at hsp hmem₂ hmem₁ hle hne
  -- the first call, with the two other functions on the stack
  obtain ⟨c₁, hc₁⟩ : ∃ c₁, c₁ = execOps [.push .rbp, .move .rsp .rbp, .push .rdi, .push .rsi] c :=
    ⟨_, rfl⟩
  have hregs₁ : c₁.regs .rax = c.regs .rax ∧ c₁.regs .rdi = c.regs .rdi ∧
      c₁.regs .rbx = c.regs .rbx ∧ c₁.regs .rsp = T - 8 - 8 := by
    rw [hc₁]
    simp [execOps, Op.exec, Core.push, hsp]
  have hstack₁ : c₁.mem (T - 8 - 8) = c.regs .rsi ∧ c₁.mem (T - 8) = c.regs .rdi := by
    rw [hc₁]
    simp only [execOps, List.foldl, Op.exec, Core.push, hsp, update_self, ne_eq,
      reduceCtorEq, not_false_eq_true, update_of_ne, BitVec.add_sub_cancel, hne, and_self]
  obtain ⟨hrax₁, hrdi₁, hrbx₁, hrsp₁⟩ := hregs₁
  have hrun : runCalls callee threadRootCode c = (c.regs .rax, c.regs .rdi) ::
      ((callee (c.regs .rax) c₁).map (runCalls callee (threadRootCode.drop 5))).getD [] := by
    rw [← hrax₁, ← hrdi₁, hc₁]
    rfl
  rw [hrun]
  cases hcall₁ : callee (c.regs .rax) c₁ with
  | none => exact ⟨0, by simp, fun hret => absurd hcall₁ (hret c₁)⟩
  | some c₂ =>
    -- the function of the thread
    obtain ⟨hkept₂, hframes₂⟩ := habi _ _ _ hcall₁
    rw [hrsp₁] at hframes₂
    have hpop : c₂.mem (c₂.regs .rsp) = c.regs .rsi := by
      rw [hkept₂ .rsp (by decide), hrsp₁, hframes₂ _ hmem₂ (BitVec.le_refl _), hstack₁.1]
    obtain ⟨c₃, hc₃⟩ : ∃ c₃, c₃ = execOps [.move .rbx .rdi, .pop .rsi] c₂ := ⟨_, rfl⟩
    have hregs₃ : c₃.regs .rsi = c.regs .rsi ∧ c₃.regs .rdi = c.regs .rbx ∧
        c₃.regs .rsp = T - 8 := by
      rw [hc₃]
      refine ⟨hpop, (hkept₂ .rbx (by decide)).trans hrbx₁, ?_⟩
      show c₂.regs .rsp + 8 = T - 8
      rw [hkept₂ .rsp (by decide), hrsp₁, BitVec.sub_add_cancel]
    obtain ⟨hrsi₃, hrdi₃, hrsp₃⟩ := hregs₃
    have hrun₃ : runCalls callee (threadRootCode.drop 5) c₂ = (c.regs .rsi, c.regs .rbx) ::
        ((callee (c.regs .rsi) c₃).map (runCalls callee (threadRootCode.drop 8))).getD [] := by
      rw [← hrsi₃, ← hrdi₃, hc₃]
      rfl
    rw [Option.map_some, Option.getD_some, hrun₃]
    cases hcall₃ : callee (c.regs .rsi) c₃ with
    | none => exact ⟨0, by simp, fun _ hret => absurd hcall₃ (hret c₃)⟩
    | some c₄ =>
      -- `ThreadFinish`; behind it there is no call
      obtain ⟨hkept₄, hframes₄⟩ := habi _ _ _ hcall₃
      rw [hrsp₃] at hframes₄
      have hmem₄ : c₄.mem (c₄.regs .rsp) = c.regs .rdi := by
        rw [hkept₄ .rsp (by decide), hrsp₃, hframes₄ _ hmem₁ (BitVec.le_refl _), hc₃]
        exact (hframes₂ _ hmem₁ hle).trans hstack₁.2
      have hrun₅ : runCalls callee (threadRootCode.drop 8) c₄ = [(c.regs .rdi, c₄.regs .rdi)] := by
        rw [← hmem₄]
        show _ :: (Option.map _ (callee _ ((Op.pop .rsi).exec c₄))).getD [] = _
        cases callee (((Op.pop .rsi).exec c₄).regs .rsi) ((Op.pop .rsi).exec c₄) <;> rfl
      rw [Option.map_some, Option.getD_some, hrun₅]
      exact ⟨c₄.regs .rdi, List.prefix_rfl, fun _ _ => rfl⟩

/-- **What a new thread does.**  In every run: when a forked thread is switched to for the first
time, it is at the beginning of `ThreadRoot`, and whatever the functions do that are called there,
if they keep to the calling convention: `InterruptEnable` is called first, then the function that
was given to `Fork`, with its argument, if that has returned, and then `ThreadFinish`. -/
theorem forked_thread_calls (h : Reach SwitchInit (SwitchStep image) s) (hcall : SwitchCall s t)
    (hl : s.left t = some l) {func arg : Word} (hf : l.forked = some (func, arg)) :
    (s.switchTo t).mach.rip = image.threadRoot ∧ ∃ stk, s.stackOf t = some stk ∧
      ∀ callee : Word → Core → Option Core, (∀ f c c', callee f c = some c' → Abi stk c c') →
        ∃ x y, runCalls callee threadRootCode (s.switchTo t).mach.cpu <+:
            [(image.interruptEnable, x), (func, arg), (image.threadFinish, y)] ∧
          ((∀ c, callee image.interruptEnable c ≠ none) → (∀ c, callee func c ≠ none) →
            runCalls callee threadRootCode (s.switchTo t).mach.cpu =
              [(image.interruptEnable, x), (func, arg), (image.threadFinish, y)]) := by
  obtain ⟨hrip, hregs, -⟩ := (SwitchInv.reach h).resumed hcall hl
  obtain ⟨stk, hstk, hholds⟩ := (SwitchInv.reach h).left t l hl
  obtain ⟨stack, rfl, hfits, hret, hrsp, hrax, hrsi, hrbx, hrdi⟩ := hholds.forked func arg hf
  refine ⟨hrip.trans hret, stackWords stack, hstk, fun callee habi => ?_⟩
  obtain ⟨c, hc⟩ : ∃ c, c = (s.switchTo t).mach.cpu := ⟨_, rfl⟩
  rw [← hc] at hregs ⊢
  have hkept : ∀ r, r ≠ .rsp → c.regs r = l.regs r := fun r hr => by
    rw [hregs, update_of_ne hr]
  have hsp : c.regs .rsp = stackTop stack + 8 := by rw [hregs, update_self, hrsp]
  obtain ⟨y, hcalls⟩ := threadRoot_calls hfits hsp habi
  rw [hkept .rax (by decide), hkept .rsi (by decide), hkept .rbx (by decide),
    hkept .rdi (by decide), hrax, hrsi, hrbx, hrdi] at hcalls
  exact ⟨image.threadFinish, y, hcalls⟩

theorem forked_thread_calls_forked : ∃ x y,
    runCalls (fun _ c => some c) threadRootCode ((forkedOnce ⟨1, 2, 3⟩).switchTo 1024).mach.cpu =
      [(2, x), (7, 9), (3, y)] := by
  obtain ⟨-, stk, -, hcalls⟩ :=
    forked_thread_calls (forkedOnce_reach ⟨1, 2, 3⟩) (forkedOnce_call _) rfl rfl
  obtain ⟨x, y, -, hall⟩ := hcalls (fun _ c => some c) fun _ c c' hc => by
    cases hc
    exact ⟨fun _ _ => rfl, fun _ _ _ => rfl⟩
  exact ⟨x, y, hall (fun _ => Option.some_ne_none _) fun _ => Option.some_ne_none _⟩

end Nachos
