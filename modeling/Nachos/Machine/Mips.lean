/-
# The MIPS simulator

`machine/mipssim.{h,cc}`: decoding of an instruction word and `Machine::OneInstruction`, with
`RaiseException`, `ReadMem` and `WriteMem` as the simulator meets them. An exception is a way
of stopping: the machine is then as it is when `ExceptionHandler` is entered. The kernel's own
use of `ReadMem` and `WriteMem`, where the handler has already moved the program counter on,
is in `Machine.Translate`; the two are compared below.

A load takes effect one instruction late. `LoadReg` and `LoadValueReg` hold the load that is
pending, `DelayedLoad` completes it and leaves the next one.
-/

import Nachos.Base.Coupled
import Nachos.Machine.Translate

namespace Nachos

open Base

/-- Double register to hold multiply result. -/
def HiReg : Fin NumTotalRegs := reg 32

@[inherit_doc HiReg]
def LoReg : Fin NumTotalRegs := reg 33

/-- The link register. -/
def R31 : Fin NumTotalRegs := reg 31

/-- The number of a general register. -/
def gpr (n : Fin 32) : Fin NumTotalRegs := ⟨n, Nat.lt_trans n.isLt (by decide)⟩

theorem gpr_injective : Function.Injective gpr :=
  fun _ _ h => Fin.ext (Fin.mk.inj h)

/-- The values of `opCode` that the decoding tables produce. -/
inductive OpCode
  | ADD | ADDI | ADDIU | ADDU | AND | ANDI | BEQ | BGEZ | BGEZAL | BGTZ | BLEZ | BLTZ | BLTZAL
  | BNE | DIV | DIVU | J | JAL | JALR | JR | LB | LBU | LH | LHU | LUI | LW | LWL | LWR | MFHI
  | MFLO | MTHI | MTLO | MULT | MULTU | NOR | OR | ORI | SB | SH | SLL | SLLV | SLT | SLTI
  | SLTIU | SLTU | SRA | SRAV | SRL | SRLV | SUB | SUBU | SW | SWL | SWR | XOR | XORI | SYSCALL
  | UNIMP | RES
  deriving DecidableEq, Repr

/-- The formats of the table of opcodes. -/
inductive Format
  | IFMT | JFMT | RFMT
  deriving DecidableEq, Repr

/-- An entry of `opTable`: an opcode, or one of the two values that need further decoding. -/
inductive OpInfo
  | op (opCode : OpCode) (format : Format)
  | SPECIAL
  | BCOND
  deriving DecidableEq, Repr

namespace OpInfo

/-- An instruction with an immediate operand. -/
abbrev imm (opCode : OpCode) : OpInfo := .op opCode .IFMT

/-- The format of an entry. -/
def format : OpInfo → Format
  | .op _ format => format
  | .SPECIAL => .RFMT
  | .BCOND => .IFMT

end OpInfo

open OpInfo OpCode in
/-- `opTable`, indexed by bits 31:26 of the instruction. -/
def opTable : List OpInfo :=
  [SPECIAL, BCOND, .op J .JFMT, .op JAL .JFMT,
    imm BEQ, imm BNE, imm BLEZ, imm BGTZ,
    imm ADDI, imm ADDIU, imm SLTI, imm SLTIU,
    imm ANDI, imm ORI, imm XORI, imm LUI,
    imm UNIMP, imm UNIMP, imm UNIMP, imm UNIMP,
    imm RES, imm RES, imm RES, imm RES,
    imm RES, imm RES, imm RES, imm RES,
    imm RES, imm RES, imm RES, imm RES,
    imm LB, imm LH, imm LWL, imm LW,
    imm LBU, imm LHU, imm LWR, imm RES,
    imm SB, imm SH, imm SWL, imm SW,
    imm RES, imm RES, imm SWR, imm RES,
    imm UNIMP, imm UNIMP, imm UNIMP, imm UNIMP,
    imm RES, imm RES, imm RES, imm RES,
    imm UNIMP, imm UNIMP, imm UNIMP, imm UNIMP,
    imm RES, imm RES, imm RES, imm RES]

open OpCode in
/-- `specialTable`, indexed by the `funct` field. -/
def specialTable : List OpCode :=
  [SLL, RES, SRL, SRA, SLLV, RES, SRLV, SRAV,
    JR, JALR, RES, RES, SYSCALL, UNIMP, RES, RES,
    MFHI, MTHI, MFLO, MTLO, RES, RES, RES, RES,
    MULT, MULTU, DIV, DIVU, RES, RES, RES, RES,
    ADD, ADDU, SUB, SUBU, AND, OR, XOR, NOR,
    RES, RES, SLT, SLTU, RES, RES, RES, RES,
    RES, RES, RES, RES, RES, RES, RES, RES,
    RES, RES, RES, RES, RES, RES, RES, RES]

/-- `class Instruction`, decoded. -/
structure Instruction where
  opCode : OpCode
  rs : Fin 32
  rt : Fin 32
  rd : Fin 32
  /-- Immediate or target or shamt field or offset. Immediates are sign-extended. -/
  extra : BitVec 32
  deriving DecidableEq, Repr

namespace Instruction

/-- The five bits of a register field. -/
def field (value : BitVec 32) (shift : ℕ) : Fin 32 := Fin.ofNat 32 (value >>> shift).toNat

/-- The field `extra`. -/
def decodeExtra (value : BitVec 32) : Format → BitVec 32
  | .IFMT =>
      let extra := value &&& 0xffff
      if extra &&& 0x8000 ≠ 0 then extra ||| 0xffff0000 else extra
  | .RFMT => (value >>> 6) &&& 0x1f
  | .JFMT => value &&& 0x3ffffff

/-- The opcode of a `BCOND` instruction. -/
def decodeBranch (value : BitVec 32) : OpCode :=
  let i := value &&& 0x1f0000
  if i = 0 then .BLTZ
  else if i = 0x10000 then .BGEZ
  else if i = 0x100000 then .BLTZAL
  else if i = 0x110000 then .BGEZAL
  else .UNIMP

/-- `Instruction::Decode`. -/
def decode (value : BitVec 32) : Instruction where
  rs := field value 21
  rt := field value 16
  rd := field value 11
  extra := decodeExtra value (opTable.getD (value >>> 26).toNat (.imm .RES)).format
  opCode :=
    match opTable.getD (value >>> 26).toNat (.imm .RES) with
    | .op opCode _ => opCode
    | .SPECIAL => specialTable.getD (value &&& 0x3f).toNat .RES
    | .BCOND => decodeBranch value

end Instruction

/-- The main loop of `Mult`: a bit of `a` at a time, with `b` shifted. -/
def multLoop : ℕ → (a bLo bHi lo hi : BitVec 32) → BitVec 32 × BitVec 32
  | 0, _, _, _, lo, hi => (hi, lo)
  | n + 1, a, bLo, bHi, lo, hi =>
      let odd := a &&& 1 ≠ 0
      let lo' := if odd then lo + bLo else lo
      -- a carry out of the low bits
      let hi' := if odd then (if lo' < bLo then hi + 1 else hi) + bHi else hi
      if odd ∧ a &&& 0xfffffffe = 0 then (hi', lo')
      else
        multLoop n (a.sshiftRight 1) (bLo <<< 1)
          (if bLo &&& 0x80000000 ≠ 0 then (bHi <<< 1) ||| 1 else bHi <<< 1) lo' hi'

/-- `Mult`: the words for `Hi` and `Lo`. -/
def mult (a b : BitVec 32) (signedArith : Bool) : BitVec 32 × BitVec 32 :=
  if a = 0 ∨ b = 0 then (0, 0)
  else
    let negative := signedArith && (a.msb != b.msb)
    let a := if signedArith && a.msb then -a else a
    let b := if signedArith && b.msb then -b else b
    let (hi, lo) := multLoop 32 a b 0 0 0
    if negative then (if ~~~lo + 1 = 0 then ~~~hi + 1 else ~~~hi, ~~~lo + 1) else (hi, lo)

/-- How the execution of an instruction can stop. -/
inductive Trap
  /-- `ExceptionHandler` is entered, with the machine as it is then. -/
  | exception (which : ExceptionType) (m : Machine)
  /-- An assertion of the simulator fails, or an index leaves the register file. -/
  | fault (fault : Fault)
  /-- The host is asked for a quotient that does not fit an `int`. -/
  | divide

/-- A computation of the simulated processor. -/
abbrev Cpu (α : Type) := StateT Machine (Except Trap) α

namespace Cpu

/-- `registers[r]`. -/
def getReg (r : Fin NumTotalRegs) : Cpu (BitVec 32) := fun m => .ok (m.registers r, m)

/-- `registers[r] = value`. -/
def setReg (r : Fin NumTotalRegs) (value : BitVec 32) : Cpu Unit :=
  fun m => .ok ((), m.writeRegister r value)

/-- `Machine::DelayedLoad`. -/
def delayedLoad (nextReg nextValue : BitVec 32) : Cpu Unit := fun m =>
  match m.delayedLoad nextReg nextValue with
  | .ok m => .ok ((), m)
  | .error fault => .error (.fault fault)

/-- `Machine::RaiseException`, up to the call of the handler. -/
def raise {α : Type} (which : ExceptionType) (badVAddr : BitVec 32) : Cpu α := fun m =>
  match (m.writeRegister BadVAddrReg badVAddr).delayedLoad 0 0 with
  | .ok m => .error (.exception which m)
  | .error fault => .error (.fault fault)

/-- An assertion of the simulator. -/
def check (condition : Prop) [Decidable condition] : Cpu Unit := fun m =>
  if condition then .ok ((), m) else .error (.fault .assertion)

/-- `Machine::ReadMem`. -/
def readMem (addr : BitVec 32) (size : Width) : Cpu (BitVec 32) := fun m =>
  match m.translate addr size false with
  | .error which => raise which addr m
  | .ok (physicalAddress, m) => .ok (Machine.load m.mainMemory physicalAddress size, m)

/-- `Machine::WriteMem`. -/
def writeMem (addr : BitVec 32) (size : Width) (value : BitVec 32) : Cpu Unit := fun m =>
  match m.translate addr size true with
  | .error which => raise which addr m
  | .ok (physicalAddress, m) =>
      .ok ((), { m with mainMemory := Machine.store m.mainMemory physicalAddress value size })

/-- In the kernel an exception moves the program counter on and the access returns. -/
theorem raiseException_of_raise {α : Type} {which which' : ExceptionType} {addr : BitVec 32}
    {m m' : Machine} (h : (raise which addr : Cpu α) m = .error (.exception which' m')) :
    m.raiseException addr = .ok m'.updatePC := by
  rw [raise] at h
  rw [Machine.raiseException]
  cases hload : (m.writeRegister BadVAddrReg addr).delayedLoad 0 0 with
  | error fault =>
      rw [hload] at h
      cases h
  | ok m₁ =>
      rw [hload] at h
      cases h
      rfl

/-- `ReadMem` in a system call and in an instruction. -/
theorem readMem_kernel (m : Machine) (addr : BitVec 32) (size : Width) :
    (∀ value m', readMem addr size m = .ok (value, m') →
      m.readMem addr size = .ok (some value, m')) ∧
    ∀ which m', readMem addr size m = .error (.exception which m') →
      m.readMem addr size = .ok (none, m'.updatePC) := by
  simp only [readMem, Machine.readMem]
  cases m.translate addr size false with
  | error which =>
      refine ⟨fun value m' h => ?_, fun which' m' h => by rw [raiseException_of_raise h]; rfl⟩
      simp only [raise] at h
      split at h <;> cases h
  | ok result =>
      refine ⟨fun value m' h => ?_, fun which' m' h => by cases h⟩
      cases h
      rfl

/-- `WriteMem` in a system call and in an instruction. -/
theorem writeMem_kernel (m : Machine) (addr : BitVec 32) (size : Width) (value : BitVec 32) :
    (∀ m', writeMem addr size value m = .ok ((), m') →
      m.writeMem addr size value = .ok (true, m')) ∧
    ∀ which m', writeMem addr size value m = .error (.exception which m') →
      m.writeMem addr size value = .ok (false, m'.updatePC) := by
  simp only [writeMem, Machine.writeMem]
  cases m.translate addr size true with
  | error which =>
      refine ⟨fun m' h => ?_, fun which' m' h => by rw [raiseException_of_raise h]; rfl⟩
      simp only [raise] at h
      split at h <;> cases h
  | ok result =>
      refine ⟨fun m' h => ?_, fun which' m' h => by cases h⟩
      cases h
      rfl

end Cpu

/-- What `OneInstruction` does behind its `switch`: the program counter to come and the load
that is left pending. -/
structure After where
  pcAfter : BitVec 32
  nextLoadReg : BitVec 32
  nextLoadValue : BitVec 32
  deriving DecidableEq, Repr

namespace Instruction

open Cpu

/-- No load, and control goes to `pcAfter`. -/
def goOn (pcAfter : BitVec 32) : Cpu After := return ⟨pcAfter, 0, 0⟩

/-- A general register as the load target. -/
def loaded (instr : Instruction) (pcAfter value : BitVec 32) : Cpu After :=
  return ⟨pcAfter, BitVec.ofNat 32 instr.rt, value⟩

/-- `IndexToAddr`. -/
def indexToAddr (x : BitVec 32) : BitVec 32 := x <<< 2

section Families

variable (instr : Instruction) (pcAfter : BitVec 32)

/-- `registers[rd]` is computed from `registers[rs]` and `registers[rt]`. -/
def threeReg (f : BitVec 32 → BitVec 32 → BitVec 32) : Cpu After := do
  let a ← getReg (gpr instr.rs)
  let b ← getReg (gpr instr.rt)
  setReg (gpr instr.rd) (f a b)
  goOn pcAfter

/-- The same, with an exception on overflow. -/
def threeRegTrap (f : BitVec 32 → BitVec 32 → BitVec 32)
    (overflow : BitVec 32 → BitVec 32 → BitVec 32 → Bool) : Cpu After := do
  let a ← getReg (gpr instr.rs)
  let b ← getReg (gpr instr.rt)
  if overflow a b (f a b) then
    raise .overflowException 0
  else do
    setReg (gpr instr.rd) (f a b)
    goOn pcAfter

/-- `registers[rt]` is computed from `registers[rs]` and the immediate operand. -/
def immediate (f : BitVec 32 → BitVec 32 → BitVec 32) : Cpu After := do
  let a ← getReg (gpr instr.rs)
  setReg (gpr instr.rt) (f a instr.extra)
  goOn pcAfter

/-- `registers[rd]` is `registers[rt]` shifted by the `shamt` field. -/
def shift (f : BitVec 32 → ℕ → BitVec 32) : Cpu After := do
  let b ← getReg (gpr instr.rt)
  setReg (gpr instr.rd) (f b instr.extra.toNat)
  goOn pcAfter

/-- A branch on `registers[rs]` and `registers[rt]`. -/
def branchTwo (c : BitVec 32 → BitVec 32 → Bool) : Cpu After := do
  let a ← getReg (gpr instr.rs)
  let b ← getReg (gpr instr.rt)
  let next ← getReg NextPCReg
  goOn (if c a b then next + indexToAddr instr.extra else pcAfter)

/-- A branch on `registers[rs]`. -/
def branch (c : BitVec 32 → Bool) : Cpu After := do
  let a ← getReg (gpr instr.rs)
  let next ← getReg NextPCReg
  goOn (if c a then next + indexToAddr instr.extra else pcAfter)

/-- `registers[r] = registers[NextPCReg] + 4`. -/
def link (r : Fin NumTotalRegs) : Cpu Unit := do
  let next ← getReg NextPCReg
  setReg r (next + 4)

/-- A general register is copied to or from `Hi` or `Lo`. -/
def move (dst src : Fin NumTotalRegs) : Cpu After := do
  let a ← getReg src
  setReg dst a
  goOn pcAfter

/-- `Hi` and `Lo` get the results of an operation on two registers. -/
def hiLo (f : BitVec 32 → BitVec 32 → BitVec 32 × BitVec 32) : Cpu After := do
  let a ← getReg (gpr instr.rs)
  let b ← getReg (gpr instr.rt)
  setReg HiReg (f a b).1
  setReg LoReg (f a b).2
  goOn pcAfter

/-- `registers[rs] + extra`, the address of a load or store. -/
def address : Cpu (BitVec 32) := do
  let a ← getReg (gpr instr.rs)
  return a + instr.extra

/-- A load from the address `tmp`; `extend` is what is made of the value that was read. -/
def loadFrom (tmp : BitVec 32) (size : Width) (extend : BitVec 32 → BitVec 32) : Cpu After := do
  let value ← readMem tmp size
  instr.loaded pcAfter (extend value)

/-- A store of the low bytes of `registers[rt]`. -/
def storeReg (size : Width) : Cpu After := do
  let tmp ← instr.address
  let b ← getReg (gpr instr.rt)
  writeMem tmp size b
  goOn pcAfter

/-- The old contents that an unaligned load merges with: the pending load, if it is for the
same register. -/
def mergeValue : Cpu (BitVec 32) := fun m =>
  .ok (if m.registers LoadReg = BitVec.ofNat 32 instr.rt then m.registers LoadValueReg
    else m.registers (gpr instr.rt), m)

/-- `LWL` and `LWR`: the word at the address is merged into a register. -/
def loadMerge (merge : (tmp old value : BitVec 32) → BitVec 32) : Cpu After := do
  let tmp ← instr.address
  check (tmp &&& 3 = 0)
  let value ← readMem tmp .word
  let old ← instr.mergeValue
  instr.loaded pcAfter (merge tmp old value)

/-- `SWL` and `SWR`: a register is merged into the word at the address. -/
def storeMerge (merge : (tmp value b : BitVec 32) → BitVec 32) : Cpu After := do
  let tmp ← instr.address
  check (tmp &&& 3 = 0)
  let value ← readMem (tmp &&& ~~~3) .word
  let b ← getReg (gpr instr.rt)
  writeMem (tmp &&& ~~~3) .word (merge tmp value b)
  goOn pcAfter

end Families

/-- A byte or a half word is extended; `sign` is its sign bit, `high` the bits above it. -/
def extend (sign high : BitVec 32) (signed : Bool) (value : BitVec 32) : BitVec 32 :=
  if value &&& sign ≠ 0 ∧ signed then value ||| high else value &&& ~~~high

/-- The inner `switch` of `LWL`. -/
def mergeLWL (tmp old value : BitVec 32) : BitVec 32 :=
  if tmp &&& 3 = 0 then value
  else if tmp &&& 3 = 1 then (old &&& 0xff) ||| (value <<< 8)
  else if tmp &&& 3 = 2 then (old &&& 0xffff) ||| (value <<< 16)
  else (old &&& 0xffffff) ||| (value <<< 24)

/-- The inner `switch` of `LWR`. -/
def mergeLWR (tmp old value : BitVec 32) : BitVec 32 :=
  if tmp &&& 3 = 0 then (old &&& 0xffffff00) ||| (value.sshiftRight 24 &&& 0xff)
  else if tmp &&& 3 = 1 then (old &&& 0xffff0000) ||| (value.sshiftRight 16 &&& 0xffff)
  else if tmp &&& 3 = 2 then (old &&& 0xff000000) ||| (value.sshiftRight 8 &&& 0xffffff)
  else value

/-- The inner `switch` of `SWL`. -/
def mergeSWL (tmp value b : BitVec 32) : BitVec 32 :=
  if tmp &&& 3 = 0 then b
  else if tmp &&& 3 = 1 then (value &&& 0xff000000) ||| (b.sshiftRight 8 &&& 0xffffff)
  else if tmp &&& 3 = 2 then (value &&& 0xffff0000) ||| (b.sshiftRight 16 &&& 0xffff)
  else (value &&& 0xffffff00) ||| (b.sshiftRight 24 &&& 0xff)

/-- The inner `switch` of `SWR`. -/
def mergeSWR (tmp value b : BitVec 32) : BitVec 32 :=
  if tmp &&& 3 = 0 then (value &&& 0xffffff) ||| (b <<< 24)
  else if tmp &&& 3 = 1 then (value &&& 0xffff) ||| (b <<< 16)
  else if tmp &&& 3 = 2 then (value &&& 0xff) ||| (b <<< 8)
  else b

/-- What a comparison stores. -/
def flag (c : Bool) : BitVec 32 := if c then 1 else 0

/-- The `switch` of `Machine::OneInstruction`; `pcAfter` is the next program counter but one
unless the instruction branches. -/
def execute (instr : Instruction) (pcAfter : BitVec 32) : Cpu After :=
  match instr.opCode with
  | .ADD => instr.threeRegTrap pcAfter (· + ·) fun a b sum => !(a ^^^ b).msb && (a ^^^ sum).msb
  | .ADDI => do
      let a ← getReg (gpr instr.rs)
      let sum := a + instr.extra
      if !(a ^^^ instr.extra).msb && (instr.extra ^^^ sum).msb then
        raise .overflowException 0
      else do
        setReg (gpr instr.rt) sum
        goOn pcAfter
  | .ADDIU => instr.immediate pcAfter (· + ·)
  | .ADDU => instr.threeReg pcAfter (· + ·)
  | .AND => instr.threeReg pcAfter (· &&& ·)
  | .ANDI => instr.immediate pcAfter fun a x => a &&& (x &&& 0xffff)
  | .BEQ => instr.branchTwo pcAfter (· == ·)
  | .BGEZAL => do
      link R31
      instr.branch pcAfter fun a => !a.msb
  | .BGEZ => instr.branch pcAfter fun a => !a.msb
  | .BGTZ => instr.branch pcAfter fun a => BitVec.slt 0 a
  | .BLEZ => instr.branch pcAfter fun a => BitVec.sle a 0
  | .BLTZAL => do
      link R31
      instr.branch pcAfter fun a => a.msb
  | .BLTZ => instr.branch pcAfter fun a => a.msb
  | .BNE => instr.branchTwo pcAfter (· != ·)
  | .DIV => do
      let a ← getReg (gpr instr.rs)
      let b ← getReg (gpr instr.rt)
      if b = 0 then do
        setReg LoReg 0
        setReg HiReg 0
        goOn pcAfter
      else if a = BitVec.intMin 32 ∧ b = -1 then
        fun _ => .error .divide
      else do
        setReg LoReg (a.sdiv b)
        setReg HiReg (a.srem b)
        goOn pcAfter
  | .DIVU => instr.hiLo pcAfter fun a b => if b = 0 then (0, 0) else (a % b, a / b)
  | .JAL => do
      link R31
      goOn ((pcAfter &&& 0xf0000000) ||| indexToAddr instr.extra)
  | .J => goOn ((pcAfter &&& 0xf0000000) ||| indexToAddr instr.extra)
  | .JALR => do
      link (gpr instr.rd)
      let a ← getReg (gpr instr.rs)
      goOn a
  | .JR => do
      let a ← getReg (gpr instr.rs)
      goOn a
  | .LB => do
      let tmp ← instr.address
      instr.loadFrom pcAfter tmp .byte (extend 0x80 0xffffff00 true)
  | .LBU => do
      let tmp ← instr.address
      instr.loadFrom pcAfter tmp .byte (extend 0x80 0xffffff00 false)
  | .LH => do
      let tmp ← instr.address
      if tmp &&& 1 ≠ 0 then raise .addressErrorException tmp
      else instr.loadFrom pcAfter tmp .half (extend 0x8000 0xffff0000 true)
  | .LHU => do
      let tmp ← instr.address
      if tmp &&& 1 ≠ 0 then raise .addressErrorException tmp
      else instr.loadFrom pcAfter tmp .half (extend 0x8000 0xffff0000 false)
  | .LUI => do
      setReg (gpr instr.rt) (instr.extra <<< 16)
      goOn pcAfter
  | .LW => do
      let tmp ← instr.address
      if tmp &&& 3 ≠ 0 then raise .addressErrorException tmp
      else instr.loadFrom pcAfter tmp .word id
  | .LWL => instr.loadMerge pcAfter mergeLWL
  | .LWR => instr.loadMerge pcAfter mergeLWR
  | .MFHI => move pcAfter (gpr instr.rd) HiReg
  | .MFLO => move pcAfter (gpr instr.rd) LoReg
  | .MTHI => move pcAfter HiReg (gpr instr.rs)
  | .MTLO => move pcAfter LoReg (gpr instr.rs)
  | .MULT => instr.hiLo pcAfter fun a b => mult a b true
  | .MULTU => instr.hiLo pcAfter fun a b => mult a b false
  | .NOR => instr.threeReg pcAfter fun a b => ~~~(a ||| b)
  | .OR => instr.threeReg pcAfter (· ||| ·)
  | .ORI => instr.immediate pcAfter fun a x => a ||| (x &&& 0xffff)
  | .SB => instr.storeReg pcAfter .byte
  | .SH => instr.storeReg pcAfter .half
  | .SLL => instr.shift pcAfter (· <<< ·)
  | .SLLV => instr.threeReg pcAfter fun a b => b <<< (a &&& 0x1f).toNat
  | .SLT => instr.threeReg pcAfter fun a b => flag (a.slt b)
  | .SLTI => instr.immediate pcAfter fun a x => flag (a.slt x)
  | .SLTIU => instr.immediate pcAfter fun a x => flag (a.ult x)
  | .SLTU => instr.threeReg pcAfter fun a b => flag (a.ult b)
  | .SRA => instr.shift pcAfter BitVec.sshiftRight
  | .SRAV => instr.threeReg pcAfter fun a b => b.sshiftRight (a &&& 0x1f).toNat
  | .SRL => instr.shift pcAfter (· >>> ·)
  | .SRLV => instr.threeReg pcAfter fun a b => b >>> (a &&& 0x1f).toNat
  | .SUB => instr.threeRegTrap pcAfter (· - ·) fun a b diff => (a ^^^ b).msb && (a ^^^ diff).msb
  | .SUBU => instr.threeReg pcAfter (· - ·)
  | .SW => instr.storeReg pcAfter .word
  | .SWL => instr.storeMerge pcAfter mergeSWL
  | .SWR => instr.storeMerge pcAfter mergeSWR
  | .SYSCALL => raise .syscallException 0
  | .XOR => instr.threeReg pcAfter (· ^^^ ·)
  | .XORI => instr.immediate pcAfter fun a x => a ^^^ (x &&& 0xffff)
  | .RES | .UNIMP => raise .illegalInstrException 0

end Instruction

/-- The end of `Machine::OneInstruction`: any delayed load, and the program counters. -/
def Cpu.retire (after : After) : Cpu Unit := do
  Cpu.delayedLoad after.nextLoadReg after.nextLoadValue
  let pc ← Cpu.getReg PCReg
  Cpu.setReg PrevPCReg pc
  let next ← Cpu.getReg NextPCReg
  Cpu.setReg PCReg next
  Cpu.setReg NextPCReg after.pcAfter

/-- `Machine::OneInstruction`. -/
def Cpu.oneInstruction : Cpu Unit := do
  let pc ← Cpu.getReg PCReg
  let raw ← Cpu.readMem pc .word
  let next ← Cpu.getReg NextPCReg
  let after ← (Instruction.decode raw).execute (next + 4)
  Cpu.retire after

end Nachos
