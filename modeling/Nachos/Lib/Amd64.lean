import Mathlib.Data.List.Nodup
import Mathlib.Logic.Function.Basic
import Mathlib.Tactic.Common

/-!
# A fragment of AMD64

Registers, words of memory, and the instructions that move words between them, call and return.
Memory is addressed by words: the addresses that are used are multiples of eight.

* `execOps`: straight-line code does what its instructions do, one after the other.
* `execOps_stores_of_mem`, `execOps_loads_of_mem`: blocks of code that save registers to a table in
  memory, or fetch them from there.
* `runCalls`: the functions that a routine calls.
-/

namespace Amd64

open Function

/-- A machine word. -/
abbrev Word := BitVec 64

/-- The general registers. -/
inductive Reg
  | rax | rbx | rcx | rdx | rsi | rdi | rbp | rsp
  | r8 | r9 | r10 | r11 | r12 | r13 | r14 | r15
  deriving DecidableEq, Repr

/-- The registers and the memory. -/
structure Core where
  regs : Reg → Word
  mem : Word → Word

/-- Instructions after which the next one follows. -/
inductive Op
  | store (src : Reg) (disp : Word) (base : Reg)    -- `mov %src,disp(%base)`
  | load (disp : Word) (base dst : Reg)             -- `mov disp(%base),%dst`
  | move (src dst : Reg)                            -- `mov %src,%dst`
  | push (src : Reg)
  | pop (dst : Reg)

/-- `push`, of any word. -/
def Core.push (c : Core) (w : Word) : Core where
  regs := update c.regs .rsp (c.regs .rsp - 8)
  mem := update c.mem (c.regs .rsp - 8) w

/-- What an instruction does. -/
def Op.exec : Op → Core → Core
  | .store src disp base, c =>
    { c with mem := update c.mem (c.regs base + disp) (c.regs src) }
  | .load disp base dst, c =>
    { c with regs := update c.regs dst (c.mem (c.regs base + disp)) }
  | .move src dst, c => { c with regs := update c.regs dst (c.regs src) }
  | .push src, c => c.push (c.regs src)
  | .pop dst, c => { c with
      regs := update (update c.regs .rsp (c.regs .rsp + 8)) dst
        (c.mem (c.regs .rsp)) }

/-- Instructions, one after the other. -/
def execOps (ops : List Op) (c : Core) : Core := ops.foldl (fun c o => o.exec c) c

theorem execOps_append (ops ops' : List Op) (c : Core) :
    execOps (ops ++ ops') c = execOps ops' (execOps ops c) := List.foldl_append

/-! ### Tables of registers -/

section table

variable (offset : Reg → Word) (base : Reg)

/-- Registers are saved to a table. -/
def stores (l : List Reg) : List Op := l.map fun r => .store r (offset r) base

/-- Registers are fetched from a table. -/
def loads (l : List Reg) : List Op := l.map fun r => .load (offset r) base r

variable {offset base}

theorem execOps_stores_regs (l : List Reg) (c : Core) :
    (execOps (stores offset base l) c).regs = c.regs := by
  induction l generalizing c with
  | nil => rfl
  | cons r l ih => exact ih _

variable {l : List Reg} {c : Core}

/-- What is not in the table stays. -/
theorem execOps_stores_of_not_mem {a : Word} (h : ∀ r ∈ l, a ≠ c.regs base + offset r) :
    (execOps (stores offset base l) c).mem a = c.mem a := by
  induction l generalizing c with
  | nil => rfl
  | cons r l ih =>
    have hrest := @ih ((Op.store r (offset r) base).exec c) fun r' hr' =>
      h r' (List.mem_cons_of_mem _ hr')
    refine hrest.trans ?_
    exact update_of_ne (h r List.mem_cons_self) _ _

/-- The table has the registers. -/
theorem execOps_stores_of_mem (hoff : Function.Injective offset) {r : Reg} (hr : r ∈ l) :
    (execOps (stores offset base l) c).mem (c.regs base + offset r) = c.regs r := by
  induction l generalizing c with
  | nil => cases hr
  | cons r' l ih =>
    by_cases hl : r ∈ l
    · exact @ih ((Op.store r' (offset r') base).exec c) hl
    · obtain rfl : r = r' := (List.mem_cons.1 hr).resolve_right hl
      have hrest : (execOps (stores offset base l) ((Op.store r (offset r) base).exec c)).mem
          (c.regs base + offset r) =
            ((Op.store r (offset r) base).exec c).mem (c.regs base + offset r) := by
        refine execOps_stores_of_not_mem fun r' hr' heq => hl ?_
        rwa [hoff ((BitVec.add_right_inj _).1 heq)]
      refine hrest.trans ?_
      exact update_self ..

theorem execOps_loads_mem (l : List Reg) (c : Core) :
    (execOps (loads offset base l) c).mem = c.mem := by
  induction l generalizing c with
  | nil => rfl
  | cons r l ih => exact ih _

theorem execOps_loads_of_not_mem {r : Reg} (hr : r ∉ l) :
    (execOps (loads offset base l) c).regs r = c.regs r := by
  induction l generalizing c with
  | nil => rfl
  | cons r' l ih =>
    rw [List.mem_cons, not_or] at hr
    refine (@ih ((Op.load (offset r') base r').exec c) hr.2).trans ?_
    exact update_of_ne hr.1 _ _

/-- The registers come from the table. -/
theorem execOps_loads_of_mem (hbase : base ∉ l) {r : Reg} (hr : r ∈ l) :
    (execOps (loads offset base l) c).regs r = c.mem (c.regs base + offset r) := by
  induction l generalizing c with
  | nil => cases hr
  | cons r' l ih =>
    rw [List.mem_cons, not_or] at hbase
    have hkept : ((Op.load (offset r') base r').exec c).regs base = c.regs base :=
      update_of_ne hbase.1 _ _
    by_cases hl : r ∈ l
    · refine (@ih ((Op.load (offset r') base r').exec c) hbase.2 hl).trans ?_
      rw [hkept]
      rfl
    · obtain rfl : r = r' := (List.mem_cons.1 hr).resolve_right hl
      refine (execOps_loads_of_not_mem hl).trans ?_
      exact update_self ..

end table

/-! ### Routines -/

/-- Instructions. -/
inductive Instr
  | op (o : Op)
  | call (target : Reg)                             -- `callq *%target`
  | ret

/-- The machine: where `rip` is, and the rest. -/
structure Mach where
  cpu : Core
  rip : Word

/-- `ret`. -/
def Mach.ret (c : Core) : Mach where
  cpu := { c with regs := update c.regs .rsp (c.regs .rsp + 8) }
  rip := c.mem (c.regs .rsp)

/-- The registers that a function gives back as it got them. -/
def calleeSaved : List Reg := [.rbx, .rbp, .rsp, .r12, .r13, .r14, .r15]

/-- What the caller may rely on when a function has returned: the registers above, and what its own
frames have on the stack. -/
structure Abi (stack : Set Word) (c c' : Core) : Prop where
  regs : ∀ r ∈ calleeSaved, c'.regs r = c.regs r
  frames : ∀ a ∈ stack, c.regs .rsp ≤ a → c'.mem a = c.mem a

/-- The functions that a routine calls, each with its argument.  `callee f c` is what the caller
finds when the function at `f` has returned, or `none` if it does not return. -/
def runCalls (callee : Word → Core → Option Core) : List Instr → Core → List (Word × Word)
  | [], _ => []
  | .op o :: is, c => runCalls callee is (o.exec c)
  | .call r :: is, c =>
    (c.regs r, c.regs .rdi) :: ((callee (c.regs r) c).map (runCalls callee is)).getD []
  | .ret :: _, _ => []

end Amd64
