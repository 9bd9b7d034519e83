/-
# The interpreter of `bin/`

`bin/execute.c`, with the opcodes of `bin/encode.h`, the fields of `bin/instr.h` and the memory of
`bin/int.h`: a second simulator of the same processor, for programs that run on the bare host. It
knows no exceptions and no delay after a load. Its memory is an array, and a program is loaded at
the address `memoffset`.

The arithmetic of an `int` wraps. A shift by a register is undefined outside `0..31`, and a
quotient that does not exist stops the host.
-/

import Nachos.Machine.Mips

namespace Nachos

open Base

namespace Execute

theorem neZero_registers : NeZero 32 := ⟨by decide⟩

attribute [local instance] neZero_registers

/-! ## Fields and opcodes -/

/-- `rd(i)`. -/
def rd (i : BitVec 32) : Fin 32 := Fin.ofNat 32 (i.sshiftRight 11 &&& 0x1f).toNat

/-- `rt(i)`. -/
def rt (i : BitVec 32) : Fin 32 := Fin.ofNat 32 (i.sshiftRight 16 &&& 0x1f).toNat

/-- `rs(i)`. -/
def rs (i : BitVec 32) : Fin 32 := Fin.ofNat 32 (i.sshiftRight 21 &&& 0x1f).toNat

/-- `shamt(i)`. -/
def shamt (i : BitVec 32) : BitVec 32 := i.sshiftRight 6 &&& 0x1f

/-- `immed(i)`. -/
def immed (i : BitVec 32) : BitVec 32 := if i &&& 0x8000 ≠ 0 then i ||| 0xffff8000 else i &&& 0x7fff

/-- The cases of the switches of `runprogram`. -/
inductive Case
  | op (opCode : OpCode)
  | BREAK
  /-- `I_LWC0` to `I_COP3`: `Sorry, no coprocessors.` -/
  | coprocessor
  deriving DecidableEq, Repr

/-- The normal opcodes. -/
def normalOps : List (ℕ × Case) :=
  [(0o02, .op .J), (0o03, .op .JAL), (0o04, .op .BEQ), (0o05, .op .BNE), (0o06, .op .BLEZ),
    (0o07, .op .BGTZ), (0o10, .op .ADDI), (0o11, .op .ADDIU), (0o12, .op .SLTI),
    (0o13, .op .SLTIU), (0o14, .op .ANDI), (0o15, .op .ORI), (0o16, .op .XORI), (0o17, .op .LUI),
    (0o20, .coprocessor), (0o21, .coprocessor), (0o22, .coprocessor), (0o23, .coprocessor),
    (0o40, .op .LB), (0o41, .op .LH), (0o42, .op .LWL), (0o43, .op .LW), (0o44, .op .LBU),
    (0o45, .op .LHU), (0o46, .op .LWR), (0o50, .op .SB), (0o51, .op .SH), (0o52, .op .SWL),
    (0o53, .op .SW), (0o56, .op .SWR),
    (0o60, .coprocessor), (0o61, .coprocessor), (0o62, .coprocessor), (0o63, .coprocessor),
    (0o70, .coprocessor), (0o71, .coprocessor), (0o72, .coprocessor), (0o73, .coprocessor)]

/-- The special opcodes. -/
def specialOps : List (ℕ × Case) :=
  [(0o00, .op .SLL), (0o02, .op .SRL), (0o03, .op .SRA), (0o04, .op .SLLV), (0o06, .op .SRLV),
    (0o07, .op .SRAV), (0o10, .op .JR), (0o11, .op .JALR), (0o14, .op .SYSCALL), (0o15, .BREAK),
    (0o20, .op .MFHI), (0o21, .op .MTHI), (0o22, .op .MFLO), (0o23, .op .MTLO),
    (0o30, .op .MULT), (0o31, .op .MULTU), (0o32, .op .DIV), (0o33, .op .DIVU),
    (0o40, .op .ADD), (0o41, .op .ADDU), (0o42, .op .SUB), (0o43, .op .SUBU), (0o44, .op .AND),
    (0o45, .op .OR), (0o46, .op .XOR), (0o47, .op .NOR), (0o52, .op .SLT), (0o53, .op .SLTU)]

/-- The `BCOND` opcodes. -/
def bcondOps : List (ℕ × Case) :=
  [(0o00, .op .BLTZ), (0o01, .op .BGEZ), (0o20, .op .BLTZAL), (0o21, .op .BGEZAL)]

/-- The case of an instruction word, if its opcode is implemented. -/
def caseOf (instr : BitVec 32) : Option Case :=
  let opcode := (instr.sshiftRight 26 &&& 0x3f).toNat
  if opcode = 0o00 then specialOps.lookup (instr &&& 0x3f).toNat
  else if opcode = 0o01 then bcondOps.lookup (rt instr).val
  else normalOps.lookup opcode

/-! ## The state -/

/-- `MEMSIZE`. -/
def MEMSIZE : ℕ := 2 ^ 24

/-- Where a program is loaded. -/
def memoffset : BitVec 32 := 0x10000000

/-- The registers, the memory, and the variables of `runprogram` that outlive an iteration. -/
structure State where
  Reg : Fin 32 → BitVec 32
  HI : BitVec 32
  LO : BitVec 32
  mem : Mem
  pc : BitVec 32
  npc : BitVec 32

/-- Why the interpreter does not go on with the next instruction. -/
inductive Stop
  /-- `exit(2)`: the instruction is not implemented. -/
  | unimplemented
  /-- `system_trap`, a system call of the host. -/
  | systemTrap
  /-- An address outside `mem`. -/
  | bounds
  /-- A shift by a register that is not below `32`. -/
  | shift
  /-- A division of the host that has no result. -/
  | divide
  deriving DecidableEq, Repr

namespace State

variable (s : State)

/-- `Reg[r] = value`. -/
def set (r : Fin 32) (value : BitVec 32) : State := { s with Reg := Function.update s.Reg r value }

/-- The index into `mem` of an access to `size` bytes. -/
def index (addr : BitVec 32) (size : ℕ) : Except Stop ℕ :=
  if (addr - memoffset).toNat + size ≤ MEMSIZE then .ok (addr - memoffset).toNat
  else .error .bounds

/-- `fetch`, `ifetch`. -/
def fetch (addr : BitVec 32) : Except Stop (BitVec 32) := do
  let i ← index addr 4
  return s.mem.word i

/-- `usfetch`. -/
def usfetch (addr : BitVec 32) : Except Stop (BitVec 32) := do
  let i ← index addr 2
  return BitVec.ofNat 32 (s.mem.uint16 i)

/-- `sfetch`. -/
def sfetch (addr : BitVec 32) : Except Stop (BitVec 32) := do
  let i ← index addr 2
  return (BitVec.ofNat 16 (s.mem.uint16 i)).signExtend 32

/-- `ucfetch`. -/
def ucfetch (addr : BitVec 32) : Except Stop (BitVec 32) := do
  let i ← index addr 1
  return (s.mem i).toBitVec.setWidth 32

/-- `cfetch`. -/
def cfetch (addr : BitVec 32) : Except Stop (BitVec 32) := do
  let i ← index addr 1
  return (s.mem i).toBitVec.signExtend 32

/-- `cstore`, `sstore` and `store`: the low bytes of a value. -/
def store (addr value : BitVec 32) (size : Width) : Except Stop State := do
  let i ← index addr size.bytes
  return { s with mem := Machine.store s.mem i value size }

/-! ## Instructions of a kind -/

/-- `Reg[rd]` is computed from `Reg[rs]` and `Reg[rt]`. -/
def three (instr : BitVec 32) (f : BitVec 32 → BitVec 32 → BitVec 32) : Except Stop State :=
  return s.set (rd instr) (f (s.Reg (rs instr)) (s.Reg (rt instr)))

/-- `Reg[rt]` is computed from `Reg[rs]` and the immediate operand. -/
def immediate (instr : BitVec 32) (f : BitVec 32 → BitVec 32 → BitVec 32) : Except Stop State :=
  return s.set (rt instr) (f (s.Reg (rs instr)) (immed instr))

/-- A shift of `Reg[rt]` by the `shamt` field. -/
def shift (instr : BitVec 32) (f : BitVec 32 → ℕ → BitVec 32) : Except Stop State :=
  return s.set (rd instr) (f (s.Reg (rt instr)) (shamt instr).toNat)

/-- A shift of `Reg[rt]` by `Reg[rs]`. -/
def shiftReg (instr : BitVec 32) (f : BitVec 32 → ℕ → BitVec 32) : Except Stop State :=
  if (s.Reg (rs instr)).toNat < 32 then
    return s.set (rd instr) (f (s.Reg (rt instr)) (s.Reg (rs instr)).toNat)
  else .error .shift

/-- A branch of the instruction at `xpc`. -/
def branch (instr xpc : BitVec 32) (taken : Bool) : Except Stop State :=
  return if taken then { s with npc := xpc + 4 + immed instr <<< 2 } else s

/-- The target of a jump of the instruction at `xpc`. -/
def jump (instr xpc : BitVec 32) : Except Stop State :=
  return { s with npc := (xpc &&& (0xf0000000 : BitVec 32)) ||| ((instr &&& 0x03ffffff) <<< 2) }

/-- `Reg[rs] + immed`, the address of a load or store. -/
def address (instr : BitVec 32) : BitVec 32 := s.Reg (rs instr) + immed instr

end State

/-- The upper word of a product of two numbers that are not negative, from the products of their
halves. -/
def mulHigh (t1 t2 : BitVec 32) : BitVec 32 :=
  let t1l := t1 &&& 0xffff
  let t1h := t1.sshiftRight 16 &&& 0xffff
  let t2l := t2 &&& 0xffff
  let t2h := t2.sshiftRight 16 &&& 0xffff
  t1h * t2h + (t1h * t2l).sshiftRight 16 + (t2h * t1l).sshiftRight 16

/-- `I_MULT`: `HI` and `LO`. -/
def multSigned (t1 t2 : BitVec 32) : BitVec 32 × BitVec 32 :=
  let neg := t1.msb != t2.msb
  let t1 := if t1.msb then -t1 else t1
  let t2 := if t2.msb then -t2 else t2
  let lo := t1 * t2
  let hi := mulHigh t1 t2
  if neg then (if ~~~lo + 1 = 0 then ~~~hi + 1 else ~~~hi, ~~~lo + 1) else (hi, lo)

/-- `I_MULTU`. -/
def multUnsigned (t1 t2 : BitVec 32) : BitVec 32 × BitVec 32 := (mulHigh t1 t2, t1 * t2)

/-- The switches of `runprogram`, for the instruction word `instr` at `xpc`. -/
def execute (instr xpc : BitVec 32) (s : State) : Except Stop State :=
  match caseOf instr with
  | some (.op .SLL) => s.shift instr (· <<< ·)
  | some (.op .SRL) => s.shift instr (· >>> ·)
  | some (.op .SRA) => s.shift instr BitVec.sshiftRight
  | some (.op .SLLV) => s.shiftReg instr (· <<< ·)
  | some (.op .SRLV) => s.shiftReg instr (· >>> ·)
  | some (.op .SRAV) => s.shiftReg instr BitVec.sshiftRight
  | some (.op .JR) => return { s with npc := s.Reg (rs instr) }
  | some (.op .JALR) => return { s with npc := s.Reg (rs instr) }.set (rd instr) (xpc + 8)
  | some (.op .SYSCALL) => .error .systemTrap
  | some .BREAK => .error .systemTrap
  | some (.op .MFHI) => return s.set (rd instr) s.HI
  | some (.op .MTHI) => return { s with HI := s.Reg (rs instr) }
  | some (.op .MFLO) => return s.set (rd instr) s.LO
  | some (.op .MTLO) => return { s with LO := s.Reg (rs instr) }
  | some (.op .MULT) =>
      let (hi, lo) := multSigned (s.Reg (rs instr)) (s.Reg (rt instr))
      return { s with HI := hi, LO := lo }
  | some (.op .MULTU) =>
      let (hi, lo) := multUnsigned (s.Reg (rs instr)) (s.Reg (rt instr))
      return { s with HI := hi, LO := lo }
  | some (.op .DIV) =>
      let a := s.Reg (rs instr)
      let b := s.Reg (rt instr)
      if b = 0 ∨ (a = BitVec.intMin 32 ∧ b = -1) then .error .divide
      else return { s with LO := a.sdiv b, HI := a.srem b }
  | some (.op .DIVU) =>
      let a := s.Reg (rs instr)
      let b := s.Reg (rt instr)
      if b = 0 then .error .divide else return { s with LO := a / b, HI := a % b }
  | some (.op .ADD) | some (.op .ADDU) => s.three instr (· + ·)
  | some (.op .SUB) | some (.op .SUBU) => s.three instr (· - ·)
  | some (.op .AND) => s.three instr (· &&& ·)
  | some (.op .OR) => s.three instr (· ||| ·)
  | some (.op .XOR) => s.three instr (· ^^^ ·)
  | some (.op .NOR) => s.three instr fun a b => ~~~(a ||| b)
  | some (.op .SLT) => s.three instr fun a b => Instruction.flag (a.slt b)
  | some (.op .SLTU) => s.three instr fun a b => Instruction.flag (a.ult b)
  | some (.op .BLTZ) => s.branch instr xpc (s.Reg (rs instr)).msb
  | some (.op .BGEZ) => s.branch instr xpc (!(s.Reg (rs instr)).msb)
  | some (.op .BLTZAL) =>
      let s := s.set 31 (xpc + 8)
      s.branch instr xpc (s.Reg (rs instr)).msb
  | some (.op .BGEZAL) =>
      let s := s.set 31 (xpc + 8)
      s.branch instr xpc (!(s.Reg (rs instr)).msb)
  | some (.op .J) => s.jump instr xpc
  | some (.op .JAL) => (s.set 31 (xpc + 8)).jump instr xpc
  | some (.op .BEQ) => s.branch instr xpc (s.Reg (rs instr) == s.Reg (rt instr))
  | some (.op .BNE) => s.branch instr xpc (s.Reg (rs instr) != s.Reg (rt instr))
  | some (.op .BLEZ) => s.branch instr xpc ((s.Reg (rs instr)).sle 0)
  | some (.op .BGTZ) => s.branch instr xpc (BitVec.slt 0 (s.Reg (rs instr)))
  | some (.op .ADDI) | some (.op .ADDIU) => s.immediate instr (· + ·)
  | some (.op .SLTI) => s.immediate instr fun a x => Instruction.flag (a.slt x)
  | some (.op .SLTIU) => s.immediate instr fun a x => Instruction.flag (a.ult x)
  | some (.op .ANDI) => s.immediate instr (· &&& ·)
  | some (.op .ORI) => s.immediate instr (· ||| ·)
  | some (.op .XORI) => s.immediate instr (· ^^^ ·)
  | some (.op .LUI) => return s.set (rt instr) (instr <<< 16)
  | some (.op .LB) => return s.set (rt instr) (← s.cfetch (s.address instr))
  | some (.op .LH) => return s.set (rt instr) (← s.sfetch (s.address instr))
  | some (.op .LWL) => do
      let i := s.address instr
      let old := s.Reg (rt instr) &&& (-1 : BitVec 32).sshiftRight (8 * (-i &&& 3).toNat)
      let word ← s.fetch (i &&& 0xfffffffc)
      return s.set (rt instr) (old ||| word <<< (8 * (i &&& 3).toNat))
  | some (.op .LW) => return s.set (rt instr) (← s.fetch (s.address instr))
  | some (.op .LBU) => return s.set (rt instr) (← s.ucfetch (s.address instr))
  | some (.op .LHU) => return s.set (rt instr) (← s.usfetch (s.address instr))
  | some (.op .LWR) => do
      let i := s.address instr
      let old := s.Reg (rt instr) &&& (-1 : BitVec 32) <<< (8 * (i &&& 3).toNat)
      let old := if i &&& 3 = 0 then 0 else old
      let word ← s.fetch (i &&& 0xfffffffc)
      return s.set (rt instr) (old ||| word.sshiftRight (8 * (-i &&& 3).toNat))
  | some (.op .SB) => s.store (s.address instr) (s.Reg (rt instr)) .byte
  | some (.op .SH) => s.store (s.address instr) (s.Reg (rt instr)) .half
  | some (.op .SW) => s.store (s.address instr) (s.Reg (rt instr)) .word
  | some (.op .SWL) | some (.op .SWR) => .error .unimplemented
  | some .coprocessor => .error .unimplemented
  | some (.op .UNIMP) | some (.op .RES) | none => .error .unimplemented

/-- An iteration of the loop of `runprogram`. -/
def step (s : State) : Except Stop State := do
  let xpc := s.pc
  let instr ← s.fetch xpc
  let s := { s with pc := s.npc, npc := s.npc + 4 }
  -- Force r0 = 0
  let s := s.set 0 0
  -- eliminate no-ops
  if instr ≠ 0 then execute instr xpc s else return s

end Execute

end Nachos
