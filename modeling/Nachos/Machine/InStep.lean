/-
# Two processors in step

What one instruction does depends on few things: the registers it names as operands, the
memory it is given to read, and for the unaligned loads the load that is pending. Two
machines that agree on these therefore execute it in step. The relation between the machines
is a parameter, in two phases: an instruction that raises an exception has not written
anything before, so that up to the exception a stronger relation can hold than at the end.

The opcodes are gone through here once. Precise exceptions, the invisibility of interrupts
and the isolation of memory are the theorem at three relations.
-/

import Nachos.Machine.Mips

namespace Nachos

open Base

namespace Instruction

/-- The registers that an instruction uses as source operands. The old contents that an
unaligned load merges with are not among them. -/
def sources (instr : Instruction) : List (Fin NumTotalRegs) :=
  match instr.opCode with
  | .ADD | .ADDU | .AND | .NOR | .OR | .SLLV | .SLT | .SLTU | .SRAV | .SRLV | .SUB | .SUBU | .XOR
  | .DIV | .DIVU | .MULT | .MULTU | .SB | .SH | .SW | .SWL | .SWR => [gpr instr.rs, gpr instr.rt]
  | .BEQ | .BNE => [gpr instr.rs, gpr instr.rt, NextPCReg]
  | .ADDI | .ADDIU | .ANDI | .ORI | .XORI | .SLTI | .SLTIU | .LB | .LBU | .LH | .LHU | .LW | .LWL
  | .LWR | .JR | .MTHI | .MTLO => [gpr instr.rs]
  | .SLL | .SRA | .SRL => [gpr instr.rt]
  | .BGEZ | .BGEZAL | .BGTZ | .BLEZ | .BLTZ | .BLTZAL | .JALR => [gpr instr.rs, NextPCReg]
  | .JAL => [NextPCReg]
  | .MFHI => [HiReg]
  | .MFLO => [LoReg]
  | .J | .LUI | .SYSCALL | .RES | .UNIMP => []

/-- The registers that an instruction stores a result into directly. -/
def targets (instr : Instruction) : List (Fin NumTotalRegs) :=
  match instr.opCode with
  | .ADD | .ADDU | .AND | .NOR | .OR | .SLLV | .SLT | .SLTU | .SRAV | .SRLV | .SUB | .SUBU | .XOR
  | .SLL | .SRA | .SRL | .MFHI | .MFLO | .JALR => [gpr instr.rd]
  | .ADDI | .ADDIU | .ANDI | .ORI | .XORI | .SLTI | .SLTIU | .LUI => [gpr instr.rt]
  | .BGEZAL | .BLTZAL | .JAL => [R31]
  | .DIV | .DIVU | .MULT | .MULTU => [HiReg, LoReg]
  | .MTHI => [HiReg]
  | .MTLO => [LoReg]
  | _ => []

/-- Operands are in the general registers, `Hi`, `Lo` and the program counters. -/
theorem lt_of_mem_sources {instr : Instruction} {r : Fin NumTotalRegs} (h : r ∈ instr.sources) :
    (r : ℕ) < 37 := by
  have hgpr (n : Fin 32) : (gpr n : ℕ) < 37 := Nat.lt_trans n.isLt (by decide)
  have hall : ∀ q ∈ instr.sources, (q : ℕ) < 37 := by
    unfold sources
    split <;> simp [hgpr, NextPCReg, HiReg, LoReg, reg] <;> decide
  exact hall r h

/-- Results go to the general registers, `Hi` and `Lo`. -/
theorem lt_of_mem_targets {instr : Instruction} {r : Fin NumTotalRegs} (h : r ∈ instr.targets) :
    (r : ℕ) < 34 := by
  have hgpr (n : Fin 32) : (gpr n : ℕ) < 34 := Nat.lt_trans n.isLt (by decide)
  have hall : ∀ q ∈ instr.targets, (q : ℕ) < 34 := by
    unfold targets
    split <;> simp [hgpr, R31, HiReg, LoReg, reg] <;> decide
  exact hall r h

end Instruction

/-- A relation between machines that the parts of an instruction keep. `Before` holds as long
as the instruction may raise an exception, `After` from its first result on. -/
structure InStep (instr : Instruction) (Before After : Machine → Machine → Prop)
    (E : Trap → Trap → Prop) : Prop where
  weaken : ∀ s t, Before s t → After s t
  source : ∀ s t, After s t → ∀ r ∈ instr.sources, s.registers r = t.registers r
  merge : Coupled Before instr.mergeValue instr.mergeValue (fun a s b t => a = b ∧ Before s t) E
  target : ∀ s t, After s t → ∀ r ∈ instr.targets, ∀ value,
    After (s.writeRegister r value) (t.writeRegister r value)
  read : ∀ addr size, Coupled Before (Cpu.readMem addr size) (Cpu.readMem addr size)
    (fun a s b t => a = b ∧ Before s t) E
  write : ∀ addr size value, Coupled Before (Cpu.writeMem addr size value)
    (Cpu.writeMem addr size value) (fun _ s _ t => After s t) E
  raise : ∀ which addr, Coupled Before (Cpu.raise which addr : Cpu Nachos.After) (Cpu.raise which addr)
    (fun _ _ _ _ => False) E
  assertion : E (.fault .assertion) (.fault .assertion)
  divide : E .divide .divide

namespace InStep

variable {instr : Instruction} {Before After : Machine → Machine → Prop} {E : Trap → Trap → Prop}
  {P : Machine → Machine → Prop}

/-- The results of the two runs of an instruction. -/
abbrev Done (After : Machine → Machine → Prop) (a : Nachos.After) (s : Machine)
    (b : Nachos.After) (t : Machine) : Prop := a = b ∧ After s t

theorem getReg {r : Fin NumTotalRegs} (h : ∀ s t, P s t → s.registers r = t.registers r) :
    Coupled P (Cpu.getReg r) (Cpu.getReg r) (fun a s b t => a = b ∧ P s t) E :=
  fun s t hst => ⟨h s t hst, hst⟩

theorem goOn (h : ∀ s t, P s t → After s t) (pc : BitVec 32) :
    Coupled P (Instruction.goOn pc) (Instruction.goOn pc) (Done After) E :=
  fun s t hst => ⟨rfl, h s t hst⟩

variable (h : InStep instr Before After E)

include h

theorem source_before {r : Fin NumTotalRegs} (hr : r ∈ instr.sources) (s t : Machine)
    (hst : Before s t) : s.registers r = t.registers r :=
  h.source s t (h.weaken s t hst) r hr

theorem raising {which : ExceptionType} {addr : BitVec 32}
    {Q : Nachos.After → Machine → Nachos.After → Machine → Prop} :
    Coupled Before (Cpu.raise which addr) (Cpu.raise which addr) Q E :=
  (h.raise which addr).mono (fun _ _ hst => hst) fun _ _ _ _ => False.elim

/-- A result is stored and the instruction is over. -/
theorem result {r : Fin NumTotalRegs} (hr : r ∈ instr.targets) (hP : ∀ s t, P s t → After s t)
    (value pc : BitVec 32) :
    Coupled P (do Cpu.setReg r value; Instruction.goOn pc)
      (do Cpu.setReg r value; Instruction.goOn pc) (Done After) E :=
  fun s t hst => ⟨rfl, h.target s t (hP s t hst) r hr value⟩

/-- Two results are stored. -/
theorem results {r r' : Fin NumTotalRegs} (hr : r ∈ instr.targets) (hr' : r' ∈ instr.targets)
    (value value' pc : BitVec 32) :
    Coupled Before (do Cpu.setReg r value; Cpu.setReg r' value'; Instruction.goOn pc)
      (do Cpu.setReg r value; Cpu.setReg r' value'; Instruction.goOn pc) (Done After) E :=
  fun s t hst =>
    ⟨rfl, h.target _ _ (h.target s t (h.weaken s t hst) r hr value) r' hr' value'⟩

theorem loaded (pc value : BitVec 32) :
    Coupled Before (instr.loaded pc value) (instr.loaded pc value) (Done After) E :=
  fun s t hst => ⟨rfl, h.weaken s t hst⟩

/-- The instruction starts by reading an operand. -/
theorem operand {r : Fin NumTotalRegs} (hr : r ∈ instr.sources)
    {f : BitVec 32 → Cpu Nachos.After} (hf : ∀ a, Coupled Before (f a) (f a) (Done After) E) :
    Coupled Before (Cpu.getReg r >>= f) (Cpu.getReg r >>= f) (Done After) E :=
  (getReg (h.source_before hr)).bind_eq hf

theorem address (hr : gpr instr.rs ∈ instr.sources) {f : BitVec 32 → Cpu Nachos.After}
    (hf : ∀ tmp, Coupled Before (f tmp) (f tmp) (Done After) E) :
    Coupled Before (instr.address >>= f) (instr.address >>= f) (Done After) E := by
  have haddress : Coupled Before instr.address instr.address (fun a s b t => a = b ∧ Before s t) E :=
    fun s t hst => ⟨by rw [h.source_before hr s t hst], hst⟩
  exact haddress.bind_eq hf

section Families

variable (pc : BitVec 32)

theorem threeReg (f : BitVec 32 → BitVec 32 → BitVec 32)
    (hs : gpr instr.rs ∈ instr.sources) (ht : gpr instr.rt ∈ instr.sources)
    (hd : gpr instr.rd ∈ instr.targets) :
    Coupled Before (instr.threeReg pc f) (instr.threeReg pc f) (Done After) E :=
  h.operand hs fun _ => h.operand ht fun _ => h.result hd h.weaken _ _

theorem threeRegTrap (f : BitVec 32 → BitVec 32 → BitVec 32)
    (overflow : BitVec 32 → BitVec 32 → BitVec 32 → Bool)
    (hs : gpr instr.rs ∈ instr.sources) (ht : gpr instr.rt ∈ instr.sources)
    (hd : gpr instr.rd ∈ instr.targets) :
    Coupled Before (instr.threeRegTrap pc f overflow) (instr.threeRegTrap pc f overflow)
      (Done After) E :=
  h.operand hs fun _ => h.operand ht fun _ =>
    .ite (fun _ => h.raising) fun _ => h.result hd h.weaken _ _

theorem immediate (f : BitVec 32 → BitVec 32 → BitVec 32)
    (hs : gpr instr.rs ∈ instr.sources) (ht : gpr instr.rt ∈ instr.targets) :
    Coupled Before (instr.immediate pc f) (instr.immediate pc f) (Done After) E :=
  h.operand hs fun _ => h.result ht h.weaken _ _

theorem shift (f : BitVec 32 → ℕ → BitVec 32)
    (ht : gpr instr.rt ∈ instr.sources) (hd : gpr instr.rd ∈ instr.targets) :
    Coupled Before (instr.shift pc f) (instr.shift pc f) (Done After) E :=
  h.operand ht fun _ => h.result hd h.weaken _ _

theorem branchTwo (c : BitVec 32 → BitVec 32 → Bool)
    (hs : gpr instr.rs ∈ instr.sources) (ht : gpr instr.rt ∈ instr.sources)
    (hn : NextPCReg ∈ instr.sources) :
    Coupled Before (instr.branchTwo pc c) (instr.branchTwo pc c) (Done After) E :=
  h.operand hs fun _ => h.operand ht fun _ => h.operand hn fun _ => goOn h.weaken _

/-- A branch that may have stored its link before. -/
theorem branch (c : BitVec 32 → Bool) (hP : ∀ s t, P s t → After s t)
    (hs : gpr instr.rs ∈ instr.sources) (hn : NextPCReg ∈ instr.sources) :
    Coupled P (instr.branch pc c) (instr.branch pc c) (Done After) E :=
  (getReg fun s t hst => h.source s t (hP s t hst) _ hs).bind_eq fun _ =>
    (getReg fun s t hst => h.source s t (hP s t hst) _ hn).bind_eq fun _ => goOn hP _

/-- The link is stored, and the instruction goes on. -/
theorem link {r : Fin NumTotalRegs} (hr : r ∈ instr.targets) (hn : NextPCReg ∈ instr.sources)
    {x : Cpu Nachos.After} (hx : Coupled After x x (Done After) E) :
    Coupled Before (do Instruction.link r; x) (do Instruction.link r; x) (Done After) E := by
  have hlink : Coupled Before (Instruction.link r) (Instruction.link r)
      (fun a s b t => a = b ∧ After s t) E := by
    intro s t hst
    refine ⟨rfl, ?_⟩
    rw [h.source_before hn s t hst]
    exact h.target s t (h.weaken s t hst) r hr _
  exact hlink.bind_eq fun _ => hx

theorem move {dst src : Fin NumTotalRegs} (hsrc : src ∈ instr.sources)
    (hdst : dst ∈ instr.targets) :
    Coupled Before (Instruction.move pc dst src) (Instruction.move pc dst src) (Done After) E :=
  h.operand hsrc fun _ => h.result hdst h.weaken _ _

theorem hiLo (f : BitVec 32 → BitVec 32 → BitVec 32 × BitVec 32)
    (hs : gpr instr.rs ∈ instr.sources) (ht : gpr instr.rt ∈ instr.sources)
    (hhi : HiReg ∈ instr.targets) (hlo : LoReg ∈ instr.targets) :
    Coupled Before (instr.hiLo pc f) (instr.hiLo pc f) (Done After) E :=
  h.operand hs fun _ => h.operand ht fun _ => h.results hhi hlo _ _ _

theorem loadFrom (tmp : BitVec 32) (size : Width) (extend : BitVec 32 → BitVec 32) :
    Coupled Before (instr.loadFrom pc tmp size extend) (instr.loadFrom pc tmp size extend)
      (Done After) E :=
  (h.read tmp size).bind_eq fun _ => h.loaded _ _

theorem store (size : Width) (addr value : BitVec 32) :
    Coupled Before (do Cpu.writeMem addr size value; Instruction.goOn pc)
      (do Cpu.writeMem addr size value; Instruction.goOn pc) (Done After) E :=
  (h.write addr size value).bind fun _ _ => goOn (fun _ _ hst => hst) pc

theorem storeReg (size : Width) (hs : gpr instr.rs ∈ instr.sources)
    (ht : gpr instr.rt ∈ instr.sources) :
    Coupled Before (instr.storeReg pc size) (instr.storeReg pc size) (Done After) E :=
  h.address hs fun _ => h.operand ht fun _ => h.store pc size _ _

theorem checking (condition : Prop) [Decidable condition] {f : Unit → Cpu Nachos.After}
    (hf : Coupled Before (f ()) (f ()) (Done After) E) :
    Coupled Before (Cpu.check condition >>= f) (Cpu.check condition >>= f) (Done After) E := by
  have hcheck : Coupled Before (Cpu.check condition) (Cpu.check condition)
      (fun a s b t => a = b ∧ Before s t) E := by
    intro s t hst
    by_cases hc : condition
    · simp only [Cpu.check, if_pos hc]
      exact ⟨trivial, hst⟩
    · simp only [Cpu.check, if_neg hc]
      exact h.assertion
  exact hcheck.bind_eq fun _ => hf

theorem loadMerge (merge : BitVec 32 → BitVec 32 → BitVec 32 → BitVec 32)
    (hs : gpr instr.rs ∈ instr.sources) :
    Coupled Before (instr.loadMerge pc merge) (instr.loadMerge pc merge) (Done After) E :=
  h.address hs fun _ => h.checking _ ((h.read _ _).bind_eq fun _ =>
    h.merge.bind_eq fun _ => h.loaded _ _)

theorem storeMerge (merge : BitVec 32 → BitVec 32 → BitVec 32 → BitVec 32)
    (hs : gpr instr.rs ∈ instr.sources) (ht : gpr instr.rt ∈ instr.sources) :
    Coupled Before (instr.storeMerge pc merge) (instr.storeMerge pc merge) (Done After) E :=
  h.address hs fun _ => h.checking _ ((h.read _ _).bind_eq fun _ =>
    h.operand ht fun _ => h.store pc _ _ _)

end Families

/-- **Every instruction is executed in step.** -/
theorem execute (pc : BitVec 32) :
    Coupled Before (instr.execute pc) (instr.execute pc) (Done After) E := by
  obtain ⟨opCode, rs, rt, rd, extra⟩ := instr
  have mem₁ {a : Fin NumTotalRegs} {l : List (Fin NumTotalRegs)} : a ∈ a :: l := List.mem_cons_self
  cases opCode with
  | ADDU | AND | NOR | OR | SLLV | SLT | SLTU | SRAV | SRLV | SUBU | XOR =>
      dsimp only [Instruction.execute]
      exact h.threeReg pc _ (by simp [Instruction.sources]) (by simp [Instruction.sources])
        (by simp [Instruction.targets])
  | ADD | SUB =>
      dsimp only [Instruction.execute]
      exact h.threeRegTrap pc _ _ (by simp [Instruction.sources]) (by simp [Instruction.sources])
        (by simp [Instruction.targets])
  | ADDI =>
      dsimp only [Instruction.execute]
      exact h.operand mem₁ fun _ => .ite (fun _ => h.raising) fun _ => h.result mem₁ h.weaken _ _
  | ADDIU | ANDI | ORI | XORI | SLTI | SLTIU =>
      dsimp only [Instruction.execute]
      exact h.immediate pc _ mem₁ mem₁
  | LUI =>
      dsimp only [Instruction.execute]
      exact h.result mem₁ h.weaken _ _
  | SLL | SRA | SRL =>
      dsimp only [Instruction.execute]
      exact h.shift pc _ mem₁ mem₁
  | BEQ | BNE =>
      dsimp only [Instruction.execute]
      exact h.branchTwo pc _ (by simp [Instruction.sources]) (by simp [Instruction.sources])
        (by simp [Instruction.sources])
  | BGEZ | BGTZ | BLEZ | BLTZ =>
      dsimp only [Instruction.execute]
      exact h.branch pc _ h.weaken (by simp [Instruction.sources]) (by simp [Instruction.sources])
  | BGEZAL | BLTZAL =>
      dsimp only [Instruction.execute]
      exact h.link mem₁ (by simp [Instruction.sources]) (h.branch pc _ (fun _ _ hst => hst)
        (by simp [Instruction.sources]) (by simp [Instruction.sources]))
  | DIV =>
      dsimp only [Instruction.execute]
      refine h.operand mem₁ fun a => h.operand (by simp [Instruction.sources]) fun b => ?_
      have hlo : LoReg ∈ (⟨.DIV, rs, rt, rd, extra⟩ : Instruction).targets := by
        simp [Instruction.targets]
      exact .ite (fun _ => h.results hlo mem₁ _ _ _) fun _ =>
        .ite (fun _ => .error fun _ _ _ => h.divide) fun _ => h.results hlo mem₁ _ _ _
  | DIVU | MULT | MULTU =>
      dsimp only [Instruction.execute]
      exact h.hiLo pc _ (by simp [Instruction.sources]) (by simp [Instruction.sources])
        (by simp [Instruction.targets]) (by simp [Instruction.targets])
  | J =>
      dsimp only [Instruction.execute]
      exact goOn h.weaken _
  | JAL =>
      dsimp only [Instruction.execute]
      exact h.link mem₁ mem₁ (goOn (fun _ _ hst => hst) _)
  | JALR =>
      dsimp only [Instruction.execute]
      exact h.link mem₁ (by simp [Instruction.sources])
        ((getReg fun s t hst => h.source s t hst _ mem₁).bind_eq fun _ =>
          goOn (fun _ _ hst => hst) _)
  | JR =>
      dsimp only [Instruction.execute]
      exact h.operand mem₁ fun _ => goOn h.weaken _
  | LB | LBU =>
      dsimp only [Instruction.execute]
      exact h.address mem₁ fun _ => h.loadFrom pc _ _ _
  | LH | LHU | LW =>
      dsimp only [Instruction.execute]
      exact h.address mem₁ fun _ => .ite (fun _ => h.raising) fun _ => h.loadFrom pc _ _ _
  | LWL | LWR =>
      dsimp only [Instruction.execute]
      exact h.loadMerge pc _ mem₁
  | MFHI | MFLO | MTHI | MTLO =>
      dsimp only [Instruction.execute]
      exact h.move pc mem₁ mem₁
  | SB | SH | SW =>
      dsimp only [Instruction.execute]
      exact h.storeReg pc _ (by simp [Instruction.sources]) (by simp [Instruction.sources])
  | SWL | SWR =>
      dsimp only [Instruction.execute]
      exact h.storeMerge pc _ (by simp [Instruction.sources]) (by simp [Instruction.sources])
  | SYSCALL | RES | UNIMP =>
      dsimp only [Instruction.execute]
      exact h.raising

omit h in
/-- **One instruction, from its fetch to the program counters.** The instruction word may be
known to meet a condition. -/
theorem oneInstruction {Start : Machine → Machine → Prop} {C : BitVec 32 → Prop}
    {Q : Unit → Machine → Unit → Machine → Prop}
    (hpc : ∀ s t, Start s t → s.registers PCReg = t.registers PCReg)
    (hfetch : ∀ pc, Coupled (fun s t => Start s t ∧ s.registers PCReg = pc)
      (Cpu.readMem pc .word) (Cpu.readMem pc .word) (fun a s b t => a = b ∧ C a ∧ Before s t) E)
    (hnext : ∀ s t, Before s t → s.registers NextPCReg = t.registers NextPCReg)
    (hinstr : ∀ raw, C raw → InStep (Instruction.decode raw) Before After E)
    (hretire : ∀ after, Coupled After (Cpu.retire after) (Cpu.retire after) Q E) :
    Coupled Start Cpu.oneInstruction Cpu.oneInstruction Q E := by
  have hread : Coupled Start (Cpu.getReg PCReg) (Cpu.getReg PCReg)
      (fun a s b t => a = b ∧ Start s t ∧ s.registers PCReg = a) E :=
    fun s t hst => ⟨hpc s t hst, hst, rfl⟩
  refine hread.bind_eq fun pc => (hfetch pc).bind_eq fun raw => ?_
  rintro s t ⟨hraw, hst⟩
  have hrest : Coupled Before (Cpu.getReg NextPCReg) (Cpu.getReg NextPCReg)
      (fun a s b t => a = b ∧ Before s t) E := getReg hnext
  exact (hrest.bind_eq fun next => ((hinstr raw hraw).execute (next + 4)).bind_eq hretire) s t hst

end InStep

end Nachos
