import Nachos.Cpu.Machine

/-!
# The MIPS simulation

`Instruction::Decode`, `Mult` and `Machine::OneInstruction` of `machine/mipssim.cc`, with the tables
of `machine/mipssim.h`.

* Host arithmetic on `int` is two's complement and wraps around; `>>` on `int` is arithmetic.
* `rs`, `rt` and `rd` are five bits of the instruction, so that they are general registers.
* A case of the switch that ends in `break` gives the machine, `pcAfter` and the delayed load it has
  set up (`Executed`); the epilogue of `OneInstruction` does the rest.
-/

namespace Nachos

variable {c : Sizes}

/-! ### Decoding -/

/-- The opcodes, with the two values of `opTable` that ask for more decoding. -/
inductive OpCode
  | add | addi | addiu | addu | and | andi | beq | bgez | bgezal | bgtz | blez | bltz | bltzal | bne
  | div | divu | j | jal | jalr | jr | lb | lbu | lh | lhu | lui | lw | lwl | lwr
  | mfhi | mflo | mthi | mtlo | mult | multu | nor | or | ori | rfe | sb | sh | sll | sllv
  | slt | slti | sltiu | sltu | sra | srav | srl | srlv | sub | subu | sw | swl | swr
  | xor | xori | syscall | unimp | res
  | special | bcond
  deriving DecidableEq, Repr

/-- `IFMT`, `JFMT` and `RFMT`. -/
inductive Format
  | IFMT
  | JFMT
  | RFMT
  deriving DecidableEq, Repr

/-- `struct OpInfo`. -/
structure OpInfo where
  opCode : OpCode
  format : Format
  deriving DecidableEq, Repr

def opTable : Vector OpInfo 64 := #v[
  ⟨.special, .RFMT⟩, ⟨.bcond, .IFMT⟩, ⟨.j, .JFMT⟩, ⟨.jal, .JFMT⟩,
  ⟨.beq, .IFMT⟩, ⟨.bne, .IFMT⟩, ⟨.blez, .IFMT⟩, ⟨.bgtz, .IFMT⟩,
  ⟨.addi, .IFMT⟩, ⟨.addiu, .IFMT⟩, ⟨.slti, .IFMT⟩, ⟨.sltiu, .IFMT⟩,
  ⟨.andi, .IFMT⟩, ⟨.ori, .IFMT⟩, ⟨.xori, .IFMT⟩, ⟨.lui, .IFMT⟩,
  ⟨.unimp, .IFMT⟩, ⟨.unimp, .IFMT⟩, ⟨.unimp, .IFMT⟩, ⟨.unimp, .IFMT⟩,
  ⟨.res, .IFMT⟩, ⟨.res, .IFMT⟩, ⟨.res, .IFMT⟩, ⟨.res, .IFMT⟩,
  ⟨.res, .IFMT⟩, ⟨.res, .IFMT⟩, ⟨.res, .IFMT⟩, ⟨.res, .IFMT⟩,
  ⟨.res, .IFMT⟩, ⟨.res, .IFMT⟩, ⟨.res, .IFMT⟩, ⟨.res, .IFMT⟩,
  ⟨.lb, .IFMT⟩, ⟨.lh, .IFMT⟩, ⟨.lwl, .IFMT⟩, ⟨.lw, .IFMT⟩,
  ⟨.lbu, .IFMT⟩, ⟨.lhu, .IFMT⟩, ⟨.lwr, .IFMT⟩, ⟨.res, .IFMT⟩,
  ⟨.sb, .IFMT⟩, ⟨.sh, .IFMT⟩, ⟨.swl, .IFMT⟩, ⟨.sw, .IFMT⟩,
  ⟨.res, .IFMT⟩, ⟨.res, .IFMT⟩, ⟨.swr, .IFMT⟩, ⟨.res, .IFMT⟩,
  ⟨.unimp, .IFMT⟩, ⟨.unimp, .IFMT⟩, ⟨.unimp, .IFMT⟩, ⟨.unimp, .IFMT⟩,
  ⟨.res, .IFMT⟩, ⟨.res, .IFMT⟩, ⟨.res, .IFMT⟩, ⟨.res, .IFMT⟩,
  ⟨.unimp, .IFMT⟩, ⟨.unimp, .IFMT⟩, ⟨.unimp, .IFMT⟩, ⟨.unimp, .IFMT⟩,
  ⟨.res, .IFMT⟩, ⟨.res, .IFMT⟩, ⟨.res, .IFMT⟩, ⟨.res, .IFMT⟩]

def specialTable : Vector OpCode 64 := #v[
  .sll, .res, .srl, .sra, .sllv, .res, .srlv, .srav,
  .jr, .jalr, .res, .res, .syscall, .unimp, .res, .res,
  .mfhi, .mthi, .mflo, .mtlo, .res, .res, .res, .res,
  .mult, .multu, .div, .divu, .res, .res, .res, .res,
  .add, .addu, .sub, .subu, .and, .or, .xor, .nor,
  .res, .res, .slt, .sltu, .res, .res, .res, .res,
  .res, .res, .res, .res, .res, .res, .res, .res,
  .res, .res, .res, .res, .res, .res, .res, .res]

/-- `class Instruction`, decoded. -/
structure Instruction where
  opCode : OpCode
  rs : Fin NumGPRegs
  rt : Fin NumGPRegs
  rd : Fin NumGPRegs
  extra : BitVec 32
  deriving DecidableEq, Repr

/-- The field of `width` bits from bit `lo` on. -/
def bitField (value : BitVec 32) (lo width : ℕ) : Fin (2 ^ width) :=
  (value.extractLsb' lo width).toFin

/-- `Decode`: the immediate, shift amount or target. -/
def decodeExtra (value : BitVec 32) : Format → BitVec 32
  | .IFMT =>
    let extra := value &&& 0xffff
    if extra &&& 0x8000 ≠ 0 then extra ||| 0xffff0000 else extra
  | .RFMT => (value >>> 6) &&& 0x1f
  | .JFMT => value &&& 0x3ffffff

/-- `Decode`: the opcode. -/
def decodeOpCode (value : BitVec 32) : OpCode → OpCode
  | .special => specialTable[bitField value 0 6]
  | .bcond =>
    let i := value &&& 0x1f0000
    if i = 0 then .bltz
    else if i = 0x10000 then .bgez
    else if i = 0x100000 then .bltzal
    else if i = 0x110000 then .bgezal
    else .unimp
  | opCode => opCode

/-- Where the opcode comes from: `opTable`, `specialTable` or the branches on the sign. -/
theorem decodeOpCode_cases (value : BitVec 32) (op : OpCode) :
    (decodeOpCode value op = op ∧ op ≠ .special ∧ op ≠ .bcond) ∨
      (op = .special ∧ decodeOpCode value op = specialTable[bitField value 0 6]) ∨
      decodeOpCode value op ∈ [OpCode.bltz, .bgez, .bltzal, .bgezal, .unimp] := by
  unfold decodeOpCode
  split
  · exact Or.inr (Or.inl ⟨rfl, rfl⟩)
  · refine Or.inr (Or.inr ?_)
    dsimp only
    split_ifs <;> decide
  · rename_i hs hb
    exact Or.inl ⟨rfl, hs, hb⟩

/-- `Instruction::Decode`. -/
def decode (value : BitVec 32) : Instruction :=
  let opPtr := opTable[bitField value 26 6]
  { opCode := decodeOpCode value opPtr.opCode
    rs := bitField value 21 5
    rt := bitField value 16 5
    rd := bitField value 11 5
    extra := decodeExtra value opPtr.format }

/-! ### Multiplication -/

/-- The locals of the loop of `Mult`. -/
structure MultState where
  a : BitVec 32
  bLo : BitVec 32
  bHi : BitVec 32
  lo : BitVec 32
  hi : BitVec 32

/-- The end of a turn of the loop of `Mult`: the next bit of `a`. -/
def MultState.shift (s : MultState) : MultState :=
  let bHi := s.bHi <<< 1
  { s with
    bHi := if s.bLo &&& 0x80000000 ≠ 0 then bHi ||| 1 else bHi
    bLo := s.bLo <<< 1
    a := s.a.sshiftRight 1 }

/-- The loop of `Mult`, with the number of turns that are left. -/
def multLoop : ℕ → MultState → MultState
  | 0, s => s
  | turns + 1, s =>
    if s.a &&& 1 ≠ 0 then
      let lo := s.lo + s.bLo
      -- carry out of the low bits
      let hi := if lo < s.bLo then s.hi + 1 else s.hi
      let s := { s with lo := lo, hi := hi + s.bHi }
      if s.a &&& 0xfffffffe = 0 then s else multLoop turns s.shift
    else multLoop turns s.shift

/-- `Mult`: the words `*hiPtr` and `*loPtr`. -/
def mult (a b : BitVec 32) (signedArith : Bool) : BitVec 32 × BitVec 32 :=
  if a = 0 ∨ b = 0 then (0, 0)
  else
    let negative := signedArith && (a.slt 0 ^^ b.slt 0)
    let a := if signedArith && a.slt 0 then -a else a
    let b := if signedArith && b.slt 0 then -b else b
    let s := multLoop 32 ⟨a, b, 0, 0, 0⟩
    if negative then
      let lo := ~~~s.lo + 1
      (if lo = 0 then ~~~s.hi + 1 else ~~~s.hi, lo)
    else (s.hi, s.lo)

/-! ### Executing -/

/-- `IndexToAddr`. -/
def indexToAddr (x : BitVec 32) : BitVec 32 := x <<< 2

def SIGN_BIT : BitVec 32 := 0x80000000

/-- What a case of the switch leaves for the epilogue. -/
structure Executed (c : Sizes) where
  machine : Machine c
  pcAfter : BitVec 32
  nextLoadReg : BitVec 32
  nextLoadValue : BitVec 32

/-- The word that LWL loads; `old` is what the register holds. -/
def lwlValue (tmp value old : BitVec 32) : BitVec 32 :=
  match (tmp &&& 3).toNat with
  | 0 => value
  | 1 => (old &&& 0xff) ||| (value <<< 8)
  | 2 => (old &&& 0xffff) ||| (value <<< 16)
  | _ => (old &&& 0xffffff) ||| (value <<< 24)

/-- The word that LWR loads. -/
def lwrValue (tmp value old : BitVec 32) : BitVec 32 :=
  match (tmp &&& 3).toNat with
  | 0 => (old &&& 0xffffff00) ||| (value.sshiftRight 24 &&& 0xff)
  | 1 => (old &&& 0xffff0000) ||| (value.sshiftRight 16 &&& 0xffff)
  | 2 => (old &&& 0xff000000) ||| (value.sshiftRight 8 &&& 0xffffff)
  | _ => value

/-- The word that SWL stores over `value`. -/
def swlValue (tmp value rt : BitVec 32) : BitVec 32 :=
  match (tmp &&& 3).toNat with
  | 0 => rt
  | 1 => (value &&& 0xff000000) ||| (rt.sshiftRight 8 &&& 0xffffff)
  | 2 => (value &&& 0xffff0000) ||| (rt.sshiftRight 16 &&& 0xffff)
  | _ => (value &&& 0xffffff00) ||| (rt.sshiftRight 24 &&& 0xff)

/-- The word that SWR stores over `value`. -/
def swrValue (tmp value rt : BitVec 32) : BitVec 32 :=
  match (tmp &&& 3).toNat with
  | 0 => (value &&& 0xffffff) ||| (rt <<< 24)
  | 1 => (value &&& 0xffff) ||| (rt <<< 16)
  | 2 => (value &&& 0xff) ||| (rt <<< 8)
  | _ => rt

namespace Machine

/-- `break`: the instruction after the next one follows, and nothing is loaded. -/
def next (m : Machine c) : Executed c := ⟨m, m.registers NextPCReg + 4, 0, 0⟩

/-- `registers[d] = value; break;`. -/
def put (d : Fin NumTotalRegs) (value : BitVec 32) (m : Machine c) : Executed c :=
  (m.setReg d value).next

/-- Set Hi and Lo. -/
def putHiLo (hi lo : BitVec 32) (m : Machine c) : Executed c :=
  ((m.setReg HiReg hi).setReg LoReg lo).next

/-- `if (taken) pcAfter = registers[NextPCReg] + IndexToAddr(instr->extra); break;`. -/
def branch (taken : Bool) (extra : BitVec 32) (m : Machine c) : Executed c :=
  { m.next with
    pcAfter := if taken then m.registers NextPCReg + indexToAddr extra else m.next.pcAfter }

/-- `pcAfter = target; break;`. -/
def jump (target : BitVec 32) (m : Machine c) : Executed c := { m.next with pcAfter := target }

/-- `nextLoadReg = instr->rt; nextLoadValue = value; break;`. -/
def load (rt : Fin NumGPRegs) (value : BitVec 32) (m : Machine c) : Executed c :=
  { m.next with nextLoadReg := .ofNat 32 rt, nextLoadValue := value }

/-- What LWL and LWR keep of the register: its value, or the one that is on its way to it. -/
def partialOld (rt : Fin NumGPRegs) (m : Machine c) : BitVec 32 :=
  if m.registers LoadReg = .ofNat 32 rt then m.registers LoadValueReg else m.registers (gp rt)

/-- The `switch` of `OneInstruction`. -/
def execute (instr : Instruction) (m : Machine c) : Except (Trap c) (Executed c) :=
  let rs := m.registers (gp instr.rs)
  let rt := m.registers (gp instr.rt)
  let rd := gp instr.rd
  let extra := instr.extra
  let nextPC := m.registers NextPCReg
  let tmp := rs + extra
  match instr.opCode with
  | .add =>
    let sum := rs + rt
    if (rs ^^^ rt) &&& SIGN_BIT = 0 ∧ (rs ^^^ sum) &&& SIGN_BIT ≠ 0 then
      m.raiseException .overflowException 0
    else .ok (m.put rd sum)
  | .addi =>
    let sum := rs + extra
    if (rs ^^^ extra) &&& SIGN_BIT = 0 ∧ (extra ^^^ sum) &&& SIGN_BIT ≠ 0 then
      m.raiseException .overflowException 0
    else .ok (m.put (gp instr.rt) sum)
  | .addiu => .ok (m.put (gp instr.rt) (rs + extra))
  | .addu => .ok (m.put rd (rs + rt))
  | .and => .ok (m.put rd (rs &&& rt))
  | .andi => .ok (m.put (gp instr.rt) (rs &&& (extra &&& 0xffff)))
  | .beq => .ok (m.branch (rs == rt) extra)
  | .bgezal =>
    -- no `break`: the test of BGEZ sees the new R31
    let m := m.setReg R31 (nextPC + 4)
    .ok (m.branch (m.registers (gp instr.rs) &&& SIGN_BIT == 0) extra)
  | .bgez => .ok (m.branch (rs &&& SIGN_BIT == 0) extra)
  | .bgtz => .ok (m.branch ((0#32).slt rs) extra)
  | .blez => .ok (m.branch (rs.sle 0) extra)
  | .bltzal =>
    let m := m.setReg R31 (nextPC + 4)
    .ok (m.branch (m.registers (gp instr.rs) &&& SIGN_BIT != 0) extra)
  | .bltz => .ok (m.branch (rs &&& SIGN_BIT != 0) extra)
  | .bne => .ok (m.branch (rs != rt) extra)
  | .div =>
    if rt = 0 then .ok (m.putHiLo 0 0)
    else if rs = .intMin 32 ∧ rt = -1 then .error (.crash .hostDivision)
    else .ok (m.putHiLo (rs.srem rt) (rs.sdiv rt))
  | .divu =>
    if rt = 0 then .ok (m.putHiLo 0 0)
    else .ok (m.putHiLo (rs % rt) (rs / rt))
  | .jal =>
    .ok ((m.setReg R31 (nextPC + 4)).jump (((nextPC + 4) &&& 0xf0000000) ||| indexToAddr extra))
  | .j => .ok (m.jump (((nextPC + 4) &&& 0xf0000000) ||| indexToAddr extra))
  | .jalr =>
    -- no `break`: if `rd` is `rs`, the jump goes to the new value
    let m := m.setReg rd (nextPC + 4)
    .ok (m.jump (m.registers (gp instr.rs)))
  | .jr => .ok (m.jump rs)
  | .lb | .lbu => do
    let (value, m) ← m.readMem tmp 1
    return m.load instr.rt
      (if value &&& 0x80 ≠ 0 ∧ instr.opCode = .lb then value ||| 0xffffff00 else value &&& 0xff)
  | .lh | .lhu =>
    if tmp &&& 1 ≠ 0 then m.raiseException .addressErrorException tmp
    else do
      let (value, m) ← m.readMem tmp 2
      return m.load instr.rt
        (if value &&& 0x8000 ≠ 0 ∧ instr.opCode = .lh then value ||| 0xffff0000
        else value &&& 0xffff)
  | .lui => .ok (m.put (gp instr.rt) (extra <<< 16))
  | .lw =>
    if tmp &&& 3 ≠ 0 then m.raiseException .addressErrorException tmp
    else do
      let (value, m) ← m.readMem tmp 4
      return m.load instr.rt value
  | .lwl =>
    if tmp &&& 3 ≠ 0 then .error (.crash .partialWord)
    else do
      let (value, m) ← m.readMem tmp 4
      return m.load instr.rt (lwlValue tmp value (m.partialOld instr.rt))
  | .lwr =>
    if tmp &&& 3 ≠ 0 then .error (.crash .partialWord)
    else do
      let (value, m) ← m.readMem tmp 4
      return m.load instr.rt (lwrValue tmp value (m.partialOld instr.rt))
  | .mfhi => .ok (m.put rd (m.registers HiReg))
  | .mflo => .ok (m.put rd (m.registers LoReg))
  | .mthi => .ok (m.put HiReg rs)
  | .mtlo => .ok (m.put LoReg rs)
  | .mult => .ok (m.putHiLo (mult rs rt true).1 (mult rs rt true).2)
  | .multu => .ok (m.putHiLo (mult rs rt false).1 (mult rs rt false).2)
  | .nor => .ok (m.put rd (~~~(rs ||| rt)))
  -- the source has `instr->rs` on both sides
  | .or => .ok (m.put rd (rs ||| rs))
  | .ori => .ok (m.put (gp instr.rt) (rs ||| (extra &&& 0xffff)))
  | .sb => do return (← m.writeMem tmp 1 rt).next
  | .sh => do return (← m.writeMem tmp 2 rt).next
  | .sll => .ok (m.put rd (rt <<< extra.toNat))
  | .sllv => .ok (m.put rd (rt <<< (rs &&& 0x1f).toNat))
  | .slt => .ok (m.put rd (if rs.slt rt then 1 else 0))
  | .slti => .ok (m.put (gp instr.rt) (if rs.slt extra then 1 else 0))
  | .sltiu => .ok (m.put (gp instr.rt) (if rs.ult extra then 1 else 0))
  | .sltu => .ok (m.put rd (if rs.ult rt then 1 else 0))
  | .sra => .ok (m.put rd (rt.sshiftRight extra.toNat))
  | .srav => .ok (m.put rd (rt.sshiftRight (rs &&& 0x1f).toNat))
  -- `tmp` is an `int`: its `>>=` is arithmetic
  | .srl => .ok (m.put rd (rt.sshiftRight extra.toNat))
  | .srlv => .ok (m.put rd (rt.sshiftRight (rs &&& 0x1f).toNat))
  | .sub =>
    let diff := rs - rt
    if (rs ^^^ rt) &&& SIGN_BIT ≠ 0 ∧ (rs ^^^ diff) &&& SIGN_BIT ≠ 0 then
      m.raiseException .overflowException 0
    else .ok (m.put rd diff)
  | .subu => .ok (m.put rd (rs - rt))
  | .sw => do return (← m.writeMem tmp 4 rt).next
  | .swl =>
    if tmp &&& 3 ≠ 0 then .error (.crash .partialWord)
    else do
      let (value, m) ← m.readMem (tmp &&& ~~~3) 4
      return (← m.writeMem (tmp &&& ~~~3) 4 (swlValue tmp value rt)).next
  | .swr =>
    if tmp &&& 3 ≠ 0 then .error (.crash .partialWord)
    else do
      let (value, m) ← m.readMem (tmp &&& ~~~3) 4
      return (← m.writeMem (tmp &&& ~~~3) 4 (swrValue tmp value rt)).next
  | .syscall => m.raiseException .syscallException 0
  | .xor => .ok (m.put rd (rs ^^^ rt))
  | .xori => .ok (m.put (gp instr.rt) (rs ^^^ (extra &&& 0xffff)))
  | .res | .unimp => m.raiseException .illegalInstrException 0
  | .rfe | .special | .bcond => .error (.crash .badOpCode)

/-- The end of `OneInstruction`: the delayed load, then the program counters. -/
def finish (e : Executed c) : Except (Trap c) (Machine c) := do
  let m ← e.machine.delayedLoad e.nextLoadReg e.nextLoadValue
  let m := m.setReg PrevPCReg (m.registers PCReg)
  let m := m.setReg PCReg (m.registers NextPCReg)
  return m.setReg NextPCReg e.pcAfter

/-- `Machine::OneInstruction`. -/
def oneInstruction (m : Machine c) : Except (Trap c) (Machine c) := do
  let (raw, m) ← m.readMem (m.registers PCReg) 4
  finish (← m.execute (decode raw))

end Machine

end Nachos
