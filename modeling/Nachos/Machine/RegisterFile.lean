/-
# The register file

A pending load is completed by a store whose index is itself in a register. The index is right
because no opcode but a load leaves one, and register `0` is zero because whatever an instruction
has put there is wiped out by the same call that completes the load. That call has to be made on
every way out of an instruction and into the kernel.

The opcodes are gone through once more, with the invariant that the index is that of a general
register; the runs then take in what the kernel does to the registers between instructions.
-/

import Nachos.Base.Trace
import Nachos.Machine.Unstoppable

namespace Nachos

open Base

/-- User's stack pointer. -/
def StackReg : Fin NumTotalRegs := reg 29

/-- `RetAddrReg` holds the return address for procedure calls. -/
def RetAddrReg : Fin NumTotalRegs := reg 31

namespace Machine

/-- `AddrSpace::InitRegisters`, for an address space of `numPages` pages. -/
def initRegisters (m : Machine) (numPages : ℕ) : Machine :=
  let m := (List.finRange NumTotalRegs).foldl (fun m i => m.writeRegister i 0) m
  let m := m.writeRegister PCReg 0
  let m := m.writeRegister NextPCReg 4
  m.writeRegister StackReg (BitVec.ofInt 32 (numPages * PageSize - 16))

/-- The registers that `StartUserThread` writes on top of `InitRegisters`. -/
def startUserThread (m : Machine) (numPages : ℕ) (arg fn returnFun sp : BitVec 32) : Machine :=
  let m := m.initRegisters numPages
  let m := m.writeRegister (reg 4) arg
  let m := m.writeRegister PCReg fn
  let m := m.writeRegister NextPCReg (fn + 4)
  let m := m.writeRegister RetAddrReg returnFun
  m.writeRegister StackReg sp

/-- The pending load is for a general register. -/
def LoadsGeneral (m : Machine) : Prop := (m.registers LoadReg).toNat < 32

/-- `DelayedLoad` stores into a general register: `Hi`, `Lo`, the program counters and the failing
address are as before. -/
structure CompletesLoad (m : Machine) (nextReg nextValue : BitVec 32) (m' : Machine) : Prop where
  call : m.delayedLoad nextReg nextValue = .ok m'
  index : m.LoadsGeneral
  frame (r : Fin NumTotalRegs) : 32 ≤ (r : ℕ) → r ≠ LoadReg → r ≠ LoadValueReg →
    m'.registers r = m.registers r

/-- The program counters move on. -/
def advance (m : Machine) (pcAfter : BitVec 32) : Machine :=
  ((m.writeRegister PrevPCReg (m.registers PCReg)).writeRegister PCReg
    (m.registers NextPCReg)).writeRegister NextPCReg pcAfter

/-- The register file at an instruction fetch. -/
structure RegisterInv (m : Machine) : Prop where
  zero : m.registers (reg 0) = 0
  load : m.LoadsGeneral

/-- Whatever happens at an instruction fetch, the store of the pending load goes to a general
register. -/
structure LoadsOrderly (m : Machine) : Prop where
  /-- An interrupt before the instruction. -/
  interrupt : ∃ m', m.CompletesLoad 0 0 m'
  /-- The end of the instruction: `s` is the machine behind the `switch`. -/
  retire {m' : Machine} : Cpu.oneInstruction m = .ok ((), m') →
    ∃ (raw : BitVec 32) (fetched s t : Machine) (after : After),
      Cpu.readMem (m.registers PCReg) .word m = .ok (raw, fetched) ∧
      (Instruction.decode raw).execute (fetched.registers NextPCReg + 4) fetched = .ok (after, s) ∧
      s.CompletesLoad after.nextLoadReg after.nextLoadValue t ∧ m' = t.advance after.pcAfter
  /-- An exception changes a general register at most. -/
  exception {which : ExceptionType} {m' : Machine} :
    Cpu.oneInstruction m = .error (.exception which m') → m.Precise m'
  /-- No store leaves the array. -/
  inside : Cpu.oneInstruction m ≠ .error (.fault .bounds)

variable {m m' : Machine}

theorem LoadsGeneral.loadsRegister (h : m.LoadsGeneral) : m.LoadsRegister :=
  Nat.lt_trans h (by decide)

@[simp]
theorem loadsGeneral_writeRegister {r : Fin NumTotalRegs} (value : BitVec 32) (h : (r : ℕ) ≠ 37) :
    (m.writeRegister r value).LoadsGeneral ↔ m.LoadsGeneral := by
  have hne : LoadReg ≠ r := fun heq => h (by rw [← heq]; decide)
  rw [LoadsGeneral, registers_writeRegister_of_ne m value hne, LoadsGeneral]

/-- **`DelayedLoad`** with a general register as its target. -/
theorem LoadsGeneral.completesLoad (h : m.LoadsGeneral) (nextReg nextValue : BitVec 32) :
    m.CompletesLoad nextReg nextValue { m with registers := m.completed nextReg nextValue } where
  call := delayedLoad_of_lt h.loadsRegister nextReg nextValue
  index := h
  frame r hr hload hvalue := by
    have hlow : (m.registers LoadReg).toNat < 32 := h
    have hzero : r ≠ reg 0 := fun heq => by
      rw [heq] at hr
      exact absurd hr (by decide)
    show m.completed nextReg nextValue r = m.registers r
    rw [completed, if_neg hzero, if_neg hvalue, if_neg hload, if_neg (by omega)]

/-- What `DelayedLoad` leaves. -/
theorem CompletesLoad.inv {nextReg nextValue : BitVec 32} (h : m.CompletesLoad nextReg nextValue m')
    (hnext : nextReg.toNat < 32) : m'.RegisterInv := by
  have hcall := h.call
  rw [delayedLoad_of_lt h.index.loadsRegister] at hcall
  obtain rfl := Except.ok.inj hcall
  refine ⟨show m.completed nextReg nextValue (reg 0) = 0 from if_pos rfl, ?_⟩
  show (m.completed nextReg nextValue LoadReg).toNat < 32
  rw [completed, if_neg (by decide), if_neg (by decide), if_pos rfl]
  exact hnext

/-- A register other than `0` and `LoadReg` may be written. -/
theorem RegisterInv.writeRegister (h : m.RegisterInv) {r : Fin NumTotalRegs} (value : BitVec 32)
    (hzero : (r : ℕ) ≠ 0) (hload : (r : ℕ) ≠ 37) : (m.writeRegister r value).RegisterInv where
  zero := by
    rw [registers_writeRegister_of_ne m value fun heq => hzero (by rw [← heq]; rfl)]
    exact h.zero
  load := (loadsGeneral_writeRegister value hload).mpr h.load

theorem RegisterInv.advance (h : m.RegisterInv) (pcAfter : BitVec 32) :
    (m.advance pcAfter).RegisterInv :=
  ((h.writeRegister _ (by decide) (by decide)).writeRegister _ (by decide) (by decide)).writeRegister
    _ (by decide) (by decide)

/-- Registers that are written with zeros. -/
theorem registers_foldl_zero (l : List (Fin NumTotalRegs)) (m : Machine) {r : Fin NumTotalRegs}
    (h : r ∈ l ∨ m.registers r = 0) :
    (l.foldl (fun m i => m.writeRegister i 0) m).registers r = 0 := by
  induction l generalizing m with
  | nil => exact h.resolve_left List.not_mem_nil
  | cons i rest ih =>
      refine ih _ ?_
      by_cases hequal : r = i
      · rw [hequal, registers_writeRegister_self]
        exact Or.inr rfl
      · rw [registers_writeRegister_of_ne m 0 hequal]
        exact h.imp_left fun hmem => (List.mem_cons.mp hmem).resolve_left hequal

/-- **`InitRegisters`** establishes the invariant. -/
theorem registerInv_initRegisters (m : Machine) (numPages : ℕ) :
    (m.initRegisters numPages).RegisterInv := by
  have hclear (r : Fin NumTotalRegs) : ((List.finRange NumTotalRegs).foldl
      (fun m i => m.writeRegister i 0) m).registers r = 0 :=
    registers_foldl_zero _ m (.inl (List.mem_finRange r))
  have hinv : ((List.finRange NumTotalRegs).foldl
      (fun m i => m.writeRegister i 0) m).RegisterInv :=
    ⟨hclear _, show BitVec.toNat _ < 32 by rw [hclear]; decide⟩
  exact ((hinv.writeRegister _ (by decide) (by decide)).writeRegister _ (by decide)
    (by decide)).writeRegister _ (by decide) (by decide)

theorem registerInv_startUserThread (m : Machine) (numPages : ℕ) (arg fn returnFun sp : BitVec 32) :
    (m.startUserThread numPages arg fn returnFun sp).RegisterInv :=
  (((((m.registerInv_initRegisters numPages).writeRegister arg (by decide)
    (by decide)).writeRegister fn (by decide) (by decide)).writeRegister (fn + 4) (by decide)
    (by decide)).writeRegister returnFun (by decide) (by decide)).writeRegister sp (by decide)
    (by decide)

/-- The registers are all that counts. -/
theorem RegisterInv.congr (h : m.RegisterInv) (hsame : m'.registers = m.registers) :
    m'.RegisterInv :=
  ⟨by rw [hsame]; exact h.zero, show (m'.registers LoadReg).toNat < 32 by rw [hsame]; exact h.load⟩

end Machine

/-! ## The opcodes -/

/-- The kernel is entered with the load completed, and no store has left the array. -/
def Trap.LoadCompleted : Trap → Prop
  | .exception _ m => m.RegisterInv
  | .fault f => f ≠ .bounds
  | .divide => True

namespace Cpu

/-- Up to its end, a computation leaves the target of the pending load alone. -/
abbrev Keeping {α : Type} (x : Cpu α) (Q : α → Prop) : Prop :=
  Keeps Machine.LoadsGeneral Trap.LoadCompleted x Q

theorem keeping_getReg (r : Fin NumTotalRegs) : Keeping (getReg r) fun _ => True :=
  fun _ hm => ⟨trivial, hm⟩

theorem keeping_setReg {r : Fin NumTotalRegs} (value : BitVec 32) (hr : (r : ℕ) < 37) :
    Keeping (setReg r value) fun _ => True :=
  fun _ hm => ⟨trivial, (Machine.loadsGeneral_writeRegister value hr.ne).mpr hm⟩

theorem keeping_check (condition : Prop) [Decidable condition] :
    Keeping (check condition) fun _ => True := by
  intro m hm
  by_cases h : condition
  · rw [wp_of_ok (show check condition m = .ok ((), m) from if_pos h)]
    exact ⟨trivial, hm⟩
  · rw [wp_of_error (show check condition m = .error (.fault .assertion) from if_neg h)]
    exact nofun

/-- An exception completes the load. -/
theorem keeping_raise {α : Type} (which : ExceptionType) (badVAddr : BitVec 32) (Q : α → Prop) :
    Keeping (raise which badVAddr) Q := by
  intro m hm
  have hwrite : (m.writeRegister BadVAddrReg badVAddr).LoadsGeneral :=
    (Machine.loadsGeneral_writeRegister badVAddr (by decide)).mpr hm
  rw [wp_of_error (raise_of_lt hm.loadsRegister which badVAddr)]
  exact (hwrite.completesLoad 0 0).inv (by decide)

theorem keeping_readMem (addr : BitVec 32) (size : Width) :
    Keeping (readMem addr size) fun _ => True := by
  intro m hm
  cases h : m.translate addr size false with
  | error which =>
      have hraise : readMem addr size m = raise which addr m := by rw [readMem, h]
      rw [wp_congr hraise]
      exact keeping_raise which addr _ m hm
  | ok result =>
      obtain ⟨physicalAddress, s⟩ := result
      obtain ⟨-, rfl⟩ := Machine.translate_eq_ok h
      have hread : readMem addr size m = .ok (Machine.load m.mainMemory physicalAddress size,
          m.touch (addr.toNat / PageSize) false) := by rw [readMem, h]; rfl
      rw [wp_of_ok hread]
      exact ⟨trivial, hm⟩

theorem keeping_writeMem (addr : BitVec 32) (size : Width) (value : BitVec 32) :
    Keeping (writeMem addr size value) fun _ => True := by
  intro m hm
  cases h : m.translate addr size true with
  | error which =>
      have hraise : writeMem addr size value m = raise which addr m := by rw [writeMem, h]
      rw [wp_congr hraise]
      exact keeping_raise which addr _ m hm
  | ok result =>
      obtain ⟨physicalAddress, s⟩ := result
      obtain ⟨-, rfl⟩ := Machine.translate_eq_ok h
      have hwrite : writeMem addr size value m = .ok ((),
          { m.touch (addr.toNat / PageSize) true with
            mainMemory := Machine.store m.mainMemory physicalAddress value size }) := by
        rw [writeMem, h]
        rfl
      rw [wp_of_ok hwrite]
      exact ⟨trivial, hm⟩

end Cpu

/-- The load that an instruction leaves is for a general register. -/
def After.LoadsGeneral (after : After) : Prop := after.nextLoadReg.toNat < 32

namespace Instruction

open Cpu

variable (instr : Instruction) (pcAfter : BitVec 32)

theorem keeping_goOn : Keeping (goOn pcAfter) After.LoadsGeneral :=
  .pure (show (0 : BitVec 32).toNat < 32 by decide)

theorem keeping_loaded (value : BitVec 32) :
    Keeping (instr.loaded pcAfter value) After.LoadsGeneral := by
  refine .pure ?_
  have hlt := instr.rt.isLt
  rw [After.LoadsGeneral, BitVec.toNat_ofNat, Nat.mod_eq_of_lt (by omega)]
  exact hlt

/-- The instruction goes on with an operand. -/
theorem keeping_operand {r : Fin NumTotalRegs} {f : BitVec 32 → Cpu After}
    (hf : ∀ a, Keeping (f a) After.LoadsGeneral) :
    Keeping (getReg r >>= f) After.LoadsGeneral :=
  (keeping_getReg r).bind fun a _ => hf a

/-- A result is stored, and the instruction goes on. -/
theorem keeping_result {r : Fin NumTotalRegs} (hr : (r : ℕ) < 37) (value : BitVec 32)
    {x : Cpu After} (hx : Keeping x After.LoadsGeneral) :
    Keeping (do setReg r value; x) After.LoadsGeneral :=
  (keeping_setReg value hr).bind fun _ _ => hx

theorem keeping_address {f : BitVec 32 → Cpu After}
    (hf : ∀ tmp, Keeping (f tmp) After.LoadsGeneral) :
    Keeping (instr.address >>= f) After.LoadsGeneral := by
  have haddress : Keeping instr.address fun _ => True :=
    (keeping_getReg _).bind fun _ _ => .pure trivial
  exact haddress.bind fun tmp _ => hf tmp

theorem keeping_link {r : Fin NumTotalRegs} (hr : (r : ℕ) < 37) {x : Cpu After}
    (hx : Keeping x After.LoadsGeneral) : Keeping (do link r; x) After.LoadsGeneral :=
  ((keeping_getReg _).bind fun _ _ => keeping_setReg _ hr).bind fun _ _ => hx

theorem keeping_threeReg (f : BitVec 32 → BitVec 32 → BitVec 32) :
    Keeping (instr.threeReg pcAfter f) After.LoadsGeneral :=
  keeping_operand fun _ => keeping_operand fun _ => keeping_result (gpr_lt _) _ (keeping_goOn _)

theorem keeping_threeRegTrap (f : BitVec 32 → BitVec 32 → BitVec 32)
    (overflow : BitVec 32 → BitVec 32 → BitVec 32 → Bool) :
    Keeping (instr.threeRegTrap pcAfter f overflow) After.LoadsGeneral :=
  keeping_operand fun _ => keeping_operand fun _ => .ite (fun _ => keeping_raise _ _ _)
    fun _ => keeping_result (gpr_lt _) _ (keeping_goOn _)

theorem keeping_immediate (f : BitVec 32 → BitVec 32 → BitVec 32) :
    Keeping (instr.immediate pcAfter f) After.LoadsGeneral :=
  keeping_operand fun _ => keeping_result (gpr_lt _) _ (keeping_goOn _)

theorem keeping_shift (f : BitVec 32 → ℕ → BitVec 32) :
    Keeping (instr.shift pcAfter f) After.LoadsGeneral :=
  keeping_operand fun _ => keeping_result (gpr_lt _) _ (keeping_goOn _)

theorem keeping_branchTwo (c : BitVec 32 → BitVec 32 → Bool) :
    Keeping (instr.branchTwo pcAfter c) After.LoadsGeneral :=
  keeping_operand fun _ => keeping_operand fun _ => keeping_operand fun _ => keeping_goOn _

theorem keeping_branch (c : BitVec 32 → Bool) :
    Keeping (instr.branch pcAfter c) After.LoadsGeneral :=
  keeping_operand fun _ => keeping_operand fun _ => keeping_goOn _

theorem keeping_move {dst : Fin NumTotalRegs} (src : Fin NumTotalRegs) (hdst : (dst : ℕ) < 37) :
    Keeping (move pcAfter dst src) After.LoadsGeneral :=
  keeping_operand fun _ => keeping_result hdst _ (keeping_goOn _)

theorem keeping_hiLo (f : BitVec 32 → BitVec 32 → BitVec 32 × BitVec 32) :
    Keeping (instr.hiLo pcAfter f) After.LoadsGeneral :=
  keeping_operand fun _ => keeping_operand fun _ => keeping_result hiReg_lt _
    (keeping_result loReg_lt _ (keeping_goOn _))

theorem keeping_loadFrom (tmp : BitVec 32) (size : Width) (extend : BitVec 32 → BitVec 32) :
    Keeping (instr.loadFrom pcAfter tmp size extend) After.LoadsGeneral :=
  (keeping_readMem tmp size).bind fun _ _ => instr.keeping_loaded pcAfter _

theorem keeping_storeReg (size : Width) :
    Keeping (instr.storeReg pcAfter size) After.LoadsGeneral :=
  instr.keeping_address fun _ => keeping_operand fun _ =>
    (keeping_writeMem _ _ _).bind fun _ _ => keeping_goOn _

theorem keeping_loadMerge (merge : BitVec 32 → BitVec 32 → BitVec 32 → BitVec 32) :
    Keeping (instr.loadMerge pcAfter merge) After.LoadsGeneral := by
  have hmerge : Keeping instr.mergeValue fun _ => True := fun _ hm => ⟨trivial, hm⟩
  exact instr.keeping_address fun _ => (keeping_check _).bind fun _ _ =>
    (keeping_readMem _ _).bind fun _ _ => hmerge.bind fun _ _ => instr.keeping_loaded pcAfter _

theorem keeping_storeMerge (merge : BitVec 32 → BitVec 32 → BitVec 32 → BitVec 32) :
    Keeping (instr.storeMerge pcAfter merge) After.LoadsGeneral :=
  instr.keeping_address fun _ => (keeping_check _).bind fun _ _ =>
    (keeping_readMem _ _).bind fun _ _ => keeping_operand fun _ =>
      (keeping_writeMem _ _ _).bind fun _ _ => keeping_goOn _

/-- **Every opcode** leaves the target of the pending load alone, and leaves a load for a general
register. -/
theorem keeping_execute : Keeping (instr.execute pcAfter) After.LoadsGeneral := by
  rw [execute]
  cases instr.opCode with
  | ADDU | AND | NOR | OR | SLLV | SLT | SLTU | SRAV | SRLV | SUBU | XOR =>
      exact instr.keeping_threeReg pcAfter _
  | ADD | SUB => exact instr.keeping_threeRegTrap pcAfter _ _
  | ADDI =>
      exact keeping_operand fun _ => .ite (fun _ => keeping_raise _ _ _)
        fun _ => keeping_result (gpr_lt _) _ (keeping_goOn _)
  | ADDIU | ANDI | ORI | XORI | SLTI | SLTIU => exact instr.keeping_immediate pcAfter _
  | LUI => exact keeping_result (gpr_lt _) _ (keeping_goOn _)
  | SLL | SRA | SRL => exact instr.keeping_shift pcAfter _
  | BEQ | BNE => exact instr.keeping_branchTwo pcAfter _
  | BGEZ | BGTZ | BLEZ | BLTZ => exact instr.keeping_branch pcAfter _
  | BGEZAL | BLTZAL => exact keeping_link r31_lt (instr.keeping_branch pcAfter _)
  | DIV =>
      refine keeping_operand fun _ => keeping_operand fun _ => ?_
      exact .ite (fun _ => keeping_result loReg_lt _ (keeping_result hiReg_lt _ (keeping_goOn _)))
        fun _ => .ite (fun _ _ _ => trivial)
          fun _ => keeping_result loReg_lt _ (keeping_result hiReg_lt _ (keeping_goOn _))
  | DIVU | MULT | MULTU => exact instr.keeping_hiLo pcAfter _
  | J => exact keeping_goOn _
  | JAL => exact keeping_link r31_lt (keeping_goOn _)
  | JALR => exact keeping_link (gpr_lt _) (keeping_operand fun _ => keeping_goOn _)
  | JR => exact keeping_operand fun _ => keeping_goOn _
  | LB | LBU => exact instr.keeping_address fun _ => instr.keeping_loadFrom pcAfter _ _ _
  | LH | LHU | LW =>
      exact instr.keeping_address fun _ => .ite (fun _ => keeping_raise _ _ _)
        fun _ => instr.keeping_loadFrom pcAfter _ _ _
  | LWL | LWR => exact instr.keeping_loadMerge pcAfter _
  | MFHI | MFLO => exact keeping_move pcAfter _ (gpr_lt _)
  | MTHI => exact keeping_move pcAfter _ hiReg_lt
  | MTLO => exact keeping_move pcAfter _ loReg_lt
  | SB | SH | SW => exact instr.keeping_storeReg pcAfter _
  | SWL | SWR => exact instr.keeping_storeMerge pcAfter _
  | SYSCALL | RES | UNIMP => exact keeping_raise _ _ _

end Instruction

/-! ## One instruction -/

namespace Machine

variable {m m' : Machine}

/-- The machine behind an instruction, by the machine `s` behind the `switch`. -/
def Retires (m m' : Machine) : Prop :=
  ∃ (raw : BitVec 32) (fetched s t : Machine) (after : After),
    Cpu.readMem (m.registers PCReg) .word m = .ok (raw, fetched) ∧
    (Instruction.decode raw).execute (fetched.registers NextPCReg + 4) fetched = .ok (after, s) ∧
    s.CompletesLoad after.nextLoadReg after.nextLoadValue t ∧ after.LoadsGeneral ∧
    m' = t.advance after.pcAfter

/-- **One instruction.** -/
theorem LoadsGeneral.wp_oneInstruction (h : m.LoadsGeneral) :
    wp Trap.LoadCompleted Cpu.oneInstruction (fun _ m' => m.Retires m') m := by
  rw [Cpu.oneInstruction, wp_bind, Cpu.wp_getReg]
  refine wp_bind_of_run (Cpu.keeping_readMem _ _ m h) fun raw fetched hread hfetched => ?_
  rw [wp_bind, Cpu.wp_getReg]
  refine wp_bind_of_run (Instruction.keeping_execute _ _ fetched hfetched.2)
    fun after s hexecute hkept => ?_
  obtain ⟨hafter, hs⟩ := hkept
  have hload := hs.completesLoad after.nextLoadReg after.nextLoadValue
  rw [wp, Cpu.retire_eq, hload.call]
  exact ⟨raw, fetched, s, _, after, hread, hexecute, hload, hafter, rfl⟩

theorem Retires.inv (h : m.Retires m') : m'.RegisterInv := by
  obtain ⟨raw, fetched, s, t, after, -, -, hload, hafter, rfl⟩ := h
  exact (hload.inv hafter).advance after.pcAfter

theorem RegisterInv.loadsOrderly (h : m.RegisterInv) : m.LoadsOrderly where
  interrupt := ⟨_, h.load.completesLoad 0 0⟩
  retire {m'} hok := by
    obtain ⟨raw, fetched, s, t, after, hread, hexecute, hload, -, hm'⟩ :=
      (wp_of_ok hok).mp h.load.wp_oneInstruction
    exact ⟨raw, fetched, s, t, after, hread, hexecute, hload, hm'⟩
  exception {which m'} herror := by
    obtain ⟨f, -, -, hprecise⟩ := (coupled_precise m h.load m m ⟨rfl, rfl, rfl⟩).of_error herror
    exact hprecise which m' rfl
  inside hfault := (wp_of_error hfault).mp h.load.wp_oneInstruction rfl

end Machine

/-! ## Runs -/

/-- The registers of a thread that does not run. -/
structure SavedRegisters where
  userRegisters : Registers
  /-- History: the thread has called `InitRegisters`. -/
  ready : Bool

/-- The machine, and the registers that the threads have saved. -/
structure UserState (ι : Type) where
  machine : Machine
  /-- History: the thread that runs has called `InitRegisters`. -/
  ready : Bool
  saved : ι → Option SavedRegisters

/-- What happens to the registers between the instructions, and the instructions. -/
inductive UserEvent (ι : Type)
  /-- `OneInstruction`, up to its end or to the handler of an exception. -/
  | oneInstruction
  /-- An interrupt in user mode calls `DelayedLoad(0, 0)`. -/
  | interrupt
  /-- The result of a system call. -/
  | writeResult (value : BitVec 32)
  | updatePC
  /-- The kernel reads or writes user memory. -/
  | readMem (addr : BitVec 32) (size : Width)
  | writeMem (addr : BitVec 32) (size : Width) (value : BitVec 32)
  /-- The kernel sets up memory or a page table. -/
  | setMemory (mainMemory : Mem) (pageTable : ℕ → TranslationEntry) (pageTableSize : ℕ)
  | initRegisters (numPages : ℕ)
  | startUserThread (numPages : ℕ) (arg fn returnFun sp : BitVec 32)
  /-- `Thread::Thread`; memory holds `uninit` where the general registers will be. -/
  | newThread (t : ι) (uninit : Registers)
  | saveUserState (t : ι)
  | restoreUserState (t : ι)

/-- The constructor of a thread clears the registers from `NumGPRegs` on. -/
def clearSpecial (uninit : Registers) : Registers :=
  fun r => if (r : ℕ) < 32 then uninit r else 0

namespace UserState

variable {ι : Type} [DecidableEq ι]

/-- The first process has called `InitRegisters`, and no other thread has been made. -/
def start (m : Machine) (numPages : ℕ) : UserState ι :=
  ⟨m.initRegisters numPages, true, fun _ => none⟩

/-- One event. A thread that has not called `InitRegisters` is in the kernel, on its way
there. -/
def Step (s : UserState ι) (event : UserEvent ι) (s' : UserState ι) : Prop :=
  match event with
  | .oneInstruction => s.ready = true ∧ ∃ m, s' = { s with machine := m } ∧
      (Cpu.oneInstruction s.machine = .ok ((), m) ∨
        ∃ which, Cpu.oneInstruction s.machine = .error (.exception which m))
  | .interrupt => s.ready = true ∧ ∃ m, s' = { s with machine := m } ∧
      s.machine.delayedLoad 0 0 = .ok m
  | .writeResult value => s.ready = true ∧
      s' = { s with machine := s.machine.writeRegister (reg 2) value }
  | .updatePC => s.ready = true ∧ s' = { s with machine := s.machine.updatePC }
  | .readMem addr size => s.ready = true ∧ ∃ m, s' = { s with machine := m } ∧
      ∃ value, s.machine.readMem addr size = .ok (value, m)
  | .writeMem addr size value => s.ready = true ∧ ∃ m, s' = { s with machine := m } ∧
      ∃ done, s.machine.writeMem addr size value = .ok (done, m)
  | .setMemory mainMemory pageTable pageTableSize =>
      s' = { s with machine := ⟨s.machine.registers, mainMemory, pageTable, pageTableSize⟩ }
  | .initRegisters numPages =>
      s' = { s with machine := s.machine.initRegisters numPages, ready := true }
  | .startUserThread numPages arg fn returnFun sp =>
      s' = { s with
        machine := s.machine.startUserThread numPages arg fn returnFun sp, ready := true }
  | .newThread t uninit =>
      s' = { s with saved := Function.update s.saved t (some ⟨clearSpecial uninit, false⟩) }
  | .saveUserState t =>
      s' = { s with saved := Function.update s.saved t (some ⟨s.machine.registers, s.ready⟩) }
  | .restoreUserState t => ∃ u, s.saved t = some u ∧
      s' = { s with machine := { s.machine with registers := u.userRegisters }, ready := u.ready }

/-- The registers of a thread: the pending load is for a general register, and register `0` is
zero once the thread has called `InitRegisters`. -/
structure Orderly (registers : Registers) (ready : Bool) : Prop where
  load : (registers LoadReg).toNat < 32
  zero : ready = true → registers (reg 0) = 0

/-- The registers of the machine and those that threads have saved. -/
structure Inv (s : UserState ι) : Prop where
  machine : Orderly s.machine.registers s.ready
  saved : ∀ t u, s.saved t = some u → Orderly u.userRegisters u.ready

variable {s s' : UserState ι} {event : UserEvent ι}

/-- An exception in the kernel completes the load and moves the program counter on. -/
theorem registerInv_raiseException {m m' : Machine} {addr : BitVec 32} (h : m.RegisterInv)
    (hraise : m.raiseException addr = .ok m') : m'.RegisterInv := by
  obtain ⟨t, hload, hm'⟩ := Except.bind_eq_ok.mp hraise
  obtain rfl := Except.ok.inj hm'
  have hwrite := (h.writeRegister (r := BadVAddrReg) addr (by decide) (by decide)).load
  have hcall := (hwrite.completesLoad 0 0).call
  obtain rfl := Except.ok.inj (hload.symm.trans hcall)
  exact ((hwrite.completesLoad 0 0).inv (by decide)).advance _

/-- A read by the kernel, which may raise an exception. -/
theorem registerInv_readMem {m m' : Machine} {addr : BitVec 32} {size : Width}
    {value : Option (BitVec 32)} (h : m.RegisterInv)
    (hread : m.readMem addr size = .ok (value, m')) : m'.RegisterInv := by
  rw [Machine.readMem] at hread
  cases htranslate : m.translate addr size false with
  | error which =>
      rw [htranslate] at hread
      obtain ⟨t, hraise, ht⟩ := Except.bind_eq_ok.mp hread
      obtain ⟨-, rfl⟩ := Prod.mk.inj (Except.ok.inj ht)
      exact registerInv_raiseException h hraise
  | ok result =>
      obtain ⟨physicalAddress, t⟩ := result
      obtain ⟨-, rfl⟩ := Machine.translate_eq_ok htranslate
      rw [htranslate] at hread
      obtain ⟨-, hequal⟩ := Prod.mk.inj (Except.ok.inj hread)
      exact hequal ▸ h.congr rfl

/-- A write by the kernel. -/
theorem registerInv_writeMem {m m' : Machine} {addr : BitVec 32} {size : Width}
    {value : BitVec 32} {done : Bool} (h : m.RegisterInv)
    (hwrite : m.writeMem addr size value = .ok (done, m')) : m'.RegisterInv := by
  rw [Machine.writeMem] at hwrite
  cases htranslate : m.translate addr size true with
  | error which =>
      rw [htranslate] at hwrite
      obtain ⟨t, hraise, ht⟩ := Except.bind_eq_ok.mp hwrite
      obtain ⟨-, rfl⟩ := Prod.mk.inj (Except.ok.inj ht)
      exact registerInv_raiseException h hraise
  | ok result =>
      obtain ⟨physicalAddress, t⟩ := result
      obtain ⟨-, rfl⟩ := Machine.translate_eq_ok htranslate
      rw [htranslate] at hwrite
      obtain ⟨-, hequal⟩ := Prod.mk.inj (Except.ok.inj hwrite)
      exact hequal ▸ h.congr rfl

omit [DecidableEq ι] in
/-- At a fetch, or in a system call. -/
theorem Inv.registerInv (h : s.Inv) (hready : s.ready = true) : s.machine.RegisterInv :=
  ⟨h.machine.zero hready, h.machine.load⟩

omit [DecidableEq ι] in
/-- The thread that runs changes its registers. -/
theorem Inv.setMachine (h : s.Inv) {m : Machine} (hm : m.RegisterInv) (ready : Bool) :
    Inv { s with machine := m, ready := ready } :=
  ⟨⟨hm.load, fun _ => hm.zero⟩, h.saved⟩

/-- The saved registers of one thread change. -/
theorem Inv.save (h : s.Inv) (t : ι) {u : SavedRegisters} (hu : Orderly u.userRegisters u.ready) :
    Inv { s with saved := Function.update s.saved t (some u) } := by
  refine ⟨h.machine, fun t' u' hu' => ?_⟩
  change Function.update s.saved t (some u) t' = some u' at hu'
  rw [Function.update_apply] at hu'
  split at hu'
  · obtain rfl := Option.some.inj hu'
    exact hu
  · exact h.saved t' u' hu'

/-- **One event** keeps the invariant. -/
theorem Inv.step (h : s.Inv) (hstep : Step s event s') : s'.Inv := by
  cases event with
  | oneInstruction =>
      obtain ⟨-, m, rfl, hok | ⟨which, herror⟩⟩ := hstep
      · exact h.setMachine ((wp_of_ok hok).mp
          (Machine.LoadsGeneral.wp_oneInstruction h.machine.load)).inv s.ready
      · exact h.setMachine ((wp_of_error herror).mp
          (Machine.LoadsGeneral.wp_oneInstruction h.machine.load)) s.ready
  | interrupt =>
      obtain ⟨-, m, rfl, hload⟩ := hstep
      have hcompletes := Machine.LoadsGeneral.completesLoad (m := s.machine) h.machine.load 0 0
      have hequal := Except.ok.inj (hload.symm.trans hcompletes.call)
      exact h.setMachine (hequal ▸ hcompletes.inv (by decide)) s.ready
  | writeResult value =>
      obtain ⟨hready, rfl⟩ := hstep
      exact h.setMachine ((h.registerInv hready).writeRegister value (by decide) (by decide)) s.ready
  | updatePC =>
      obtain ⟨hready, rfl⟩ := hstep
      exact h.setMachine ((h.registerInv hready).advance _) s.ready
  | readMem addr size =>
      obtain ⟨hready, m, rfl, value, hread⟩ := hstep
      exact h.setMachine (registerInv_readMem (h.registerInv hready) hread) s.ready
  | writeMem addr size value =>
      obtain ⟨hready, m, rfl, done, hwrite⟩ := hstep
      exact h.setMachine (registerInv_writeMem (h.registerInv hready) hwrite) s.ready
  | setMemory mainMemory pageTable pageTableSize =>
      obtain rfl := hstep
      exact ⟨h.machine, h.saved⟩
  | initRegisters numPages =>
      obtain rfl := hstep
      exact h.setMachine (s.machine.registerInv_initRegisters numPages) true
  | startUserThread numPages arg fn returnFun sp =>
      obtain rfl := hstep
      exact h.setMachine (s.machine.registerInv_startUserThread numPages arg fn returnFun sp) true
  | newThread t uninit =>
      obtain rfl := hstep
      refine h.save t ⟨?_, fun hready => Bool.noConfusion hready⟩
      show (clearSpecial uninit LoadReg).toNat < 32
      rw [clearSpecial, if_neg (by decide)]
      decide
  | saveUserState t =>
      obtain rfl := hstep
      exact h.save t h.machine
  | restoreUserState t =>
      obtain ⟨u, hu, rfl⟩ := hstep
      exact ⟨h.saved t u hu, h.saved⟩

/-- **The register file.** From `InitRegisters` on, register `0` is zero at every fetch, and the
pending load is for a general register; so its store never hits another register, nor anything
outside the array. -/
theorem registerFile_of_run {m : Machine} {numPages : ℕ} {s : UserState ι}
    {steps : List (Base.Step (UserState ι) (UserEvent ι))}
    (hrun : Trace Step (start m numPages) steps s) :
    (s.ready = true → s.machine.RegisterInv ∧ s.machine.LoadsOrderly) ∧
      ∀ x ∈ steps, x.before.ready = true →
        x.before.machine.RegisterInv ∧ x.before.machine.LoadsOrderly := by
  have hinit : (start m numPages : UserState ι).Inv := by
    have hm := m.registerInv_initRegisters numPages
    exact ⟨⟨hm.load, fun _ => hm.zero⟩, fun t u hu => by cases hu⟩
  obtain ⟨hlast, hall⟩ := hrun.invariant_of_forall (I := Inv)
    (fun x hbefore hstep => hbefore.step hstep) hinit
  have horderly {s : UserState ι} (h : s.Inv) (hready : s.ready = true) :
      s.machine.RegisterInv ∧ s.machine.LoadsOrderly :=
    ⟨h.registerInv hready, (h.registerInv hready).loadsOrderly⟩
  exact ⟨horderly hlast, fun x hx => horderly (hall x hx).1⟩

/-- The program `lw r0, 0(r0)` is interrupted, saved before and restored after the interrupt. -/
theorem registerFile_lw_zero :
    ∃ (steps : List (Base.Step (UserState Unit) (UserEvent Unit))) (s : UserState Unit),
      Trace Step (start (Machine.onePage 0x8c000000) 1) steps s ∧
      steps.map (fun x => x.label) = [.oneInstruction, .saveUserState (), .interrupt,
        .writeResult 9, .restoreUserState (), .oneInstruction] ∧
      s.ready = true ∧
      (s.ready = true → s.machine.RegisterInv ∧ s.machine.LoadsOrderly) ∧
        ∀ x ∈ steps, x.before.ready = true →
          x.before.machine.RegisterInv ∧ x.before.machine.LoadsOrderly := by
  have hrun := Trace.nil (R := Step) (start (Machine.onePage 0x8c000000) 1 : UserState Unit)
  have hrun := hrun.snoc (i := UserEvent.oneInstruction) (u := ⟨_, _, _⟩)
    ⟨rfl, _, rfl, .inl rfl⟩
  have hrun := hrun.snoc (i := UserEvent.saveUserState ()) rfl
  have hrun := hrun.snoc (i := UserEvent.interrupt) (u := ⟨_, _, _⟩) ⟨rfl, _, rfl, rfl⟩
  have hrun := hrun.snoc (i := UserEvent.writeResult 9) ⟨rfl, rfl⟩
  have hrun := hrun.snoc (i := UserEvent.restoreUserState ()) ⟨_, rfl, rfl⟩
  have hrun := hrun.snoc (i := UserEvent.oneInstruction) (u := ⟨_, _, _⟩)
    ⟨rfl, _, rfl, .inl rfl⟩
  exact ⟨_, _, hrun, rfl, rfl, registerFile_of_run hrun⟩

end UserState

end Nachos
