/-
# Pending loads, exceptions and interrupts

Between two instructions a load may be pending. Whoever enters the kernel completes it:
`RaiseException` when an instruction cannot be executed, and `CheckIfDue` when an interrupt
fires in user mode. An exception is precise: apart from the load that was completed nothing
has changed, so that the instruction can be started again. An interrupt before an instruction
that does not touch the register of the pending load cannot be noticed at all.
-/

import Nachos.Machine.InStep
import Nachos.Machine.UserMemory

namespace Nachos

open Base

namespace Machine

/-- The registers after `DelayedLoad`. -/
def completed (m : Machine) (nextReg nextValue : BitVec 32) : Registers := fun r =>
  if r = reg 0 then 0
  else if r = LoadValueReg then nextValue
  else if r = LoadReg then nextReg
  else if (r : ℕ) = (m.registers LoadReg).toNat then m.registers LoadValueReg
  else m.registers r

/-- A pending load into a register of the register file. -/
theorem delayedLoad_of_lt {m : Machine} (h : (m.registers LoadReg).toNat < NumTotalRegs)
    (nextReg nextValue : BitVec 32) :
    m.delayedLoad nextReg nextValue =
      .ok { m with registers := m.completed nextReg nextValue } := by
  rw [delayedLoad, dif_pos h]
  simp only [writeRegister, Except.ok.injEq, Machine.mk.injEq, and_self, and_true]
  funext r
  simp only [completed, Function.update_apply, Fin.ext_iff]

end Machine

namespace Cpu

/-- The exception that `RaiseException` makes of a state whose load can be completed. -/
theorem raise_of_lt {α : Type} {m : Machine} (h : (m.registers LoadReg).toNat < NumTotalRegs)
    (which : ExceptionType) (badVAddr : BitVec 32) :
    (raise which badVAddr : Cpu α) m = .error (.exception which
      { m with registers := (m.writeRegister BadVAddrReg badVAddr).completed 0 0 }) := by
  have hload : ((m.writeRegister BadVAddrReg badVAddr).registers LoadReg).toNat < NumTotalRegs := by
    rw [Machine.registers_writeRegister_of_ne m badVAddr (by decide)]
    exact h
  rw [raise, Machine.delayedLoad_of_lt hload]
  rfl

/-- What is done after a load that can be completed. -/
theorem delayedLoad_bind {α : Type} {m m' : Machine} {nextReg nextValue : BitVec 32}
    (h : m.delayedLoad nextReg nextValue = .ok m') (x : Cpu α) :
    (do delayedLoad nextReg nextValue; x) m = x m' := by
  show (delayedLoad nextReg nextValue >>= fun _ => x) m = _
  simp only [bind, StateT.bind, delayedLoad, h]
  rfl

/-- The end of an instruction, by what `DelayedLoad` makes of the machine. -/
theorem retire_eq (after : After) (m : Machine) :
    retire after m = match m.delayedLoad after.nextLoadReg after.nextLoadValue with
      | .ok m => .ok ((), ((m.writeRegister PrevPCReg (m.registers PCReg)).writeRegister PCReg
          (m.registers NextPCReg)).writeRegister NextPCReg after.pcAfter)
      | .error fault => .error (.fault fault) := by
  show (delayedLoad _ _ >>= _) m = _
  simp only [bind, StateT.bind, delayedLoad]
  cases m.delayedLoad after.nextLoadReg after.nextLoadValue with
  | error fault => rfl
  | ok m => rfl

end Cpu

/-! ## Precise exceptions -/

namespace Machine

/-- The state in which the handler is entered differs from `m` only by the completion of the
load that was pending. -/
structure Precise (m m' : Machine) : Prop where
  mainMemory : m'.mainMemory = m.mainMemory
  special : ∀ r ∈ [PCReg, NextPCReg, PrevPCReg, HiReg, LoReg], m'.registers r = m.registers r
  general : ∀ r : Fin 32, m'.registers (gpr r) =
    if r = 0 then 0
    else if (m.registers LoadReg).toNat = r then m.registers LoadValueReg
    else m.registers (gpr r)

/-- Only the use and dirty bits of pages have changed. -/
def Unwritten (m s : Machine) : Prop :=
  s.registers = m.registers ∧ s.mainMemory = m.mainMemory

variable {m s : Machine}

/-- An exception before the first result is precise. -/
theorem Unwritten.precise (h : m.Unwritten s) (hload : (m.registers LoadReg).toNat < 32)
    (badVAddr : BitVec 32) :
    m.Precise { s with registers := (s.writeRegister BadVAddrReg badVAddr).completed 0 0 } := by
  obtain ⟨hregs, hmem⟩ := h
  have hvalue (r : Fin NumTotalRegs) (hr : r ≠ BadVAddrReg) :
      (s.writeRegister BadVAddrReg badVAddr).registers r = m.registers r := by
    rw [registers_writeRegister_of_ne s badVAddr hr, hregs]
  refine ⟨hmem, fun r hr => ?_, fun r => ?_⟩
  · have hlow : 32 ≤ (r : ℕ) ∧ (r : ℕ) < 37 := by
      have hall : ∀ r ∈ [PCReg, NextPCReg, PrevPCReg, HiReg, LoReg],
          32 ≤ (r : ℕ) ∧ (r : ℕ) < 37 := by decide
      exact hall r hr
    show completed _ 0 0 r = _
    have h₀ : r ≠ reg 0 := fun heq => by rw [heq] at hlow; exact absurd hlow.1 (by decide)
    have h₁ : r ≠ LoadValueReg := fun heq => by rw [heq] at hlow; exact absurd hlow.2 (by decide)
    have h₂ : r ≠ LoadReg := fun heq => by rw [heq] at hlow; exact absurd hlow.2 (by decide)
    have h₃ : r ≠ BadVAddrReg := fun heq => by rw [heq] at hlow; exact absurd hlow.2 (by decide)
    rw [completed, if_neg h₀, if_neg h₁, if_neg h₂, hvalue LoadReg (by decide), if_neg (by omega),
      hvalue r h₃]
  · show completed _ 0 0 (gpr r) = _
    have hr := r.isLt
    have hne (n : ℕ) (hn : n < NumTotalRegs) (hlow : 32 ≤ n) : gpr r ≠ ⟨n, hn⟩ := fun heq => by
      have hval : (r : ℕ) = n := congrArg Fin.val heq
      omega
    have hzero : gpr r = reg 0 ↔ r = 0 :=
      ⟨fun heq => Fin.ext (show (r : ℕ) = 0 from congrArg Fin.val heq), fun heq => by rw [heq]; rfl⟩
    simp only [completed, hzero, hvalue LoadReg (by decide), hvalue LoadValueReg (by decide),
      if_neg (show gpr r ≠ LoadValueReg from hne 38 _ (by decide)),
      if_neg (show gpr r ≠ LoadReg from hne 37 _ (by decide)),
      hvalue (gpr r) (hne 39 _ (by decide))]
    have hindex : (gpr r : ℕ) = (m.registers LoadReg).toNat ↔ (m.registers LoadReg).toNat = r :=
      eq_comm
    simp only [hindex]

/-- Two equal runs that are precise if they raise an exception. -/
def PreciseTrap (m : Machine) (e f : Trap) : Prop :=
  e = f ∧ ∀ which m', e = .exception which m' → m.Precise m'

theorem Unwritten.preciseTrap (h : m.Unwritten s) (hload : (m.registers LoadReg).toNat < 32)
    {α : Type} (Q : α → Machine → α → Machine → Prop) (which : ExceptionType)
    (badVAddr : BitVec 32) :
    Agree Q m.PreciseTrap (Cpu.raise which badVAddr s) (Cpu.raise which badVAddr s) := by
  rw [Cpu.raise_of_lt (by rw [h.1]; exact Nat.lt_trans hload (by decide))]
  refine ⟨rfl, fun which' m' heq => ?_⟩
  cases heq
  exact h.precise hload badVAddr

/-- A run that is not finished has written nothing. -/
theorem inStep_unwritten (m : Machine) (hload : (m.registers LoadReg).toNat < 32)
    (instr : Instruction) :
    InStep instr (fun s t => s = t ∧ m.Unwritten s) (fun s t => s = t) m.PreciseTrap where
  weaken _ _ h := h.1
  source := by
    rintro s _ rfl r -
    rfl
  merge := by
    rintro s _ ⟨rfl, h⟩
    exact ⟨rfl, rfl, h⟩
  target := by
    rintro s _ rfl r - value
    rfl
  read := by
    rintro addr size s _ ⟨rfl, h⟩
    simp only [Cpu.readMem]
    cases htranslate : s.translate addr size false with
    | error which => exact h.preciseTrap hload _ which addr
    | ok result =>
        obtain ⟨physicalAddress, s'⟩ := result
        obtain ⟨-, rfl⟩ := translate_eq_ok htranslate
        exact ⟨rfl, rfl, h⟩
  write := by
    rintro addr size value s _ ⟨rfl, h⟩
    simp only [Cpu.writeMem]
    cases htranslate : s.translate addr size true with
    | error which => exact h.preciseTrap hload _ which addr
    | ok result => rfl
  raise := by
    rintro which addr s _ ⟨rfl, h⟩
    exact h.preciseTrap hload _ which addr
  assertion := ⟨rfl, nofun⟩
  divide := ⟨rfl, nofun⟩

/-- An instruction that raises an exception has changed nothing but what `Precise` allows. -/
theorem coupled_precise (m : Machine) (hload : (m.registers LoadReg).toNat < 32) :
    Coupled (fun s t => s = t ∧ m.Unwritten s) Cpu.oneInstruction Cpu.oneInstruction
      (fun _ _ _ _ => True) m.PreciseTrap := by
  refine InStep.oneInstruction
    (C := fun _ => True) (fun s t h => by rw [h.1])
    (fun pc s t h => ((inStep_unwritten m hload (Instruction.decode 0)).read pc .word s t h.1).mono
      fun _ _ _ _ hread => ⟨hread.1, trivial, hread.2⟩)
    (fun s t h => by rw [h.1]) (fun raw _ => inStep_unwritten m hload _)
    (fun after s t h => ?_)
  subst h
  rw [Cpu.retire_eq]
  by_cases hlt : (s.registers LoadReg).toNat < NumTotalRegs
  · rw [delayedLoad_of_lt hlt]
    trivial
  · rw [delayedLoad, dif_neg hlt]
    exact ⟨rfl, nofun⟩

/-- **Precise exceptions.** If an instruction raises an exception, the handler is entered with
the program counters, `Hi`, `Lo` and the memory as they were before the instruction, and with
the general registers changed only by the load that was pending. -/
theorem exceptions_precise (m : Machine) (hload : (m.registers LoadReg).toNat < 32)
    {which : ExceptionType} {m' : Machine}
    (hraise : Cpu.oneInstruction m = .error (.exception which m')) : m.Precise m' := by
  obtain ⟨f, -, -, hprecise⟩ := (coupled_precise m hload m m ⟨rfl, rfl, rfl⟩).of_error hraise
  exact hprecise which m' rfl

/-- A machine whose page `0` lies in the first frame and holds one instruction. A load of `7`
into register `5` is pending. -/
def onePage (instruction : BitVec 32) : Machine where
  registers := fun r => if r = LoadReg then 5 else if r = LoadValueReg then 7 else 0
  mainMemory := Mem.setWord (fun _ => 0) 0 instruction
  pageTable := fun i => ⟨i, i, true, false, false, false⟩
  pageTableSize := 1

/-- A system call while a load is pending. -/
theorem exceptions_precise_syscall :
    ((onePage 0xc).registers LoadReg).toNat < 32 ∧
      ∃ m', Cpu.oneInstruction (onePage 0xc) = .error (.exception .syscallException m') ∧
        (onePage 0xc).Precise m' :=
  ⟨by decide, _, rfl, exceptions_precise _ (by decide) rfl⟩

end Machine

/-! ## Interrupts between instructions -/

namespace Machine

/-- The registers as they are once the pending load into register `r` is completed, register
`0` apart. -/
def loadCompleted (r : Fin 32) (registers : Registers) : Registers :=
  Function.update (Function.update (Function.update registers (gpr r) (registers LoadValueReg))
    LoadReg 0) LoadValueReg 0

/-- In the first machine a load into `r` is pending, in the second it is completed, and they
do not differ otherwise. -/
structure Interrupted (r : Fin 32) (s t : Machine) : Prop where
  pending : s.registers LoadReg = BitVec.ofNat 32 r
  registers : t.registers = loadCompleted r s.registers
  mainMemory : t.mainMemory = s.mainMemory
  pageTable : t.pageTable = s.pageTable
  pageTableSize : t.pageTableSize = s.pageTableSize

namespace Interrupted

variable {r : Fin 32} {s t : Machine}

theorem gpr_ne {q : Fin NumTotalRegs} (hq : 32 ≤ (q : ℕ)) : gpr r ≠ q := fun heq => by
  have hval : (r : ℕ) = q := congrArg Fin.val heq
  have hlt := r.isLt
  omega

theorem toNat_pending (h : Interrupted r s t) : (s.registers LoadReg).toNat = r := by
  have hlt := r.isLt
  rw [h.pending, BitVec.toNat_ofNat, Nat.mod_eq_of_lt (by omega)]

/-- The machines agree on every other register. -/
theorem registers_eq (h : Interrupted r s t) {q : Fin NumTotalRegs} (hq : q ≠ gpr r)
    (hload : q ≠ LoadReg) (hvalue : q ≠ LoadValueReg) : s.registers q = t.registers q := by
  rw [h.registers, loadCompleted, Function.update_of_ne hvalue, Function.update_of_ne hload,
    Function.update_of_ne hq]

theorem loadReg_eq (h : Interrupted r s t) : t.registers LoadReg = 0 := by
  rw [h.registers, loadCompleted, Function.update_of_ne (by decide), Function.update_self]

theorem loadValueReg_eq (h : Interrupted r s t) : t.registers LoadValueReg = 0 := by
  rw [h.registers, loadCompleted, Function.update_self]

theorem target_eq (h : Interrupted r s t) : t.registers (gpr r) = s.registers LoadValueReg := by
  rw [h.registers, loadCompleted, Function.update_of_ne (gpr_ne (by decide)),
    Function.update_of_ne (gpr_ne (by decide)), Function.update_self]

/-- The same result is stored on both sides. -/
theorem writeRegister (h : Interrupted r s t) {q : Fin NumTotalRegs} (hq : q ≠ gpr r)
    (hload : q ≠ LoadReg) (hvalue : q ≠ LoadValueReg) (value : BitVec 32) :
    Interrupted r (s.writeRegister q value) (t.writeRegister q value) where
  pending := by
    rw [registers_writeRegister_of_ne s value hload.symm]
    exact h.pending
  registers := by
    show Function.update t.registers q value = loadCompleted r (Function.update s.registers q value)
    rw [h.registers, loadCompleted, loadCompleted, Function.update_of_ne hvalue.symm,
      Function.update_comm hvalue.symm, Function.update_comm hload.symm, Function.update_comm hq.symm]
  mainMemory := h.mainMemory
  pageTable := h.pageTable
  pageTableSize := h.pageTableSize

/-- Completing the load on the first side makes the machines equal. -/
theorem completed_eq (h : Interrupted r s t) (nextReg nextValue : BitVec 32) :
    s.completed nextReg nextValue = t.completed nextReg nextValue := by
  funext q
  have hindex := h.toNat_pending
  simp only [completed]
  split_ifs with h₀ h₁ h₂ h₃ h₄ h₅
  · rfl
  · rfl
  · rfl
  · have hzero : (q : ℕ) = 0 := by rw [h₄, h.loadReg_eq]; rfl
    exact absurd (Fin.ext hzero) h₀
  · have hq : q = gpr r := Fin.ext (by rw [h₃, hindex]; rfl)
    rw [hq, h.target_eq]
  · have hzero : (q : ℕ) = 0 := by rw [h₅, h.loadReg_eq]; rfl
    exact absurd (Fin.ext hzero) h₀
  · refine h.registers_eq (fun heq => h₃ ?_) h₂ h₁
    rw [heq, hindex]
    rfl

theorem delayedLoad_eq (h : Interrupted r s t) (nextReg nextValue : BitVec 32) :
    s.delayedLoad nextReg nextValue = t.delayedLoad nextReg nextValue := by
  have hlt := r.isLt
  rw [delayedLoad_of_lt (by rw [h.toNat_pending]; exact Nat.lt_trans hlt (by decide)),
    delayedLoad_of_lt (by rw [h.loadReg_eq]; decide), h.completed_eq]
  simp only [h.mainMemory, h.pageTable, h.pageTableSize]

theorem raise_eq {α : Type} (h : Interrupted r s t) (which : ExceptionType) (addr : BitVec 32) :
    (Cpu.raise which addr : Cpu α) s = Cpu.raise which addr t := by
  have hwrite := h.writeRegister (q := BadVAddrReg) (gpr_ne (by decide)).symm (by decide)
    (by decide) addr
  rw [Cpu.raise, Cpu.raise, hwrite.delayedLoad_eq]

theorem agree_raise {α : Type} (h : Interrupted r s t) (Q : α → Machine → α → Machine → Prop)
    (which : ExceptionType) (addr : BitVec 32) :
    Agree Q Eq (Cpu.raise which addr s) (Cpu.raise which addr t) := by
  rw [h.raise_eq, Cpu.raise]
  cases (t.writeRegister BadVAddrReg addr).delayedLoad 0 0 with
  | error fault => rfl
  | ok m => rfl

/-- An unaligned load finds the same old contents, in the pending load or in the register. -/
theorem mergeValue_eq (h : Interrupted r s t) (hr : r ≠ 0) (hzero : s.registers (reg 0) = 0)
    (rt : Fin 32) :
    (if s.registers LoadReg = BitVec.ofNat 32 rt then s.registers LoadValueReg
      else s.registers (gpr rt)) =
    if t.registers LoadReg = BitVec.ofNat 32 rt then t.registers LoadValueReg
      else t.registers (gpr rt) := by
  have hofNat (a b : Fin 32) : BitVec.ofNat 32 a = BitVec.ofNat 32 b ↔ a = b := by
    refine ⟨fun heq => Fin.ext ?_, fun heq => by rw [heq]⟩
    have htoNat := congrArg BitVec.toNat heq
    simp only [BitVec.toNat_ofNat] at htoNat
    omega
  rw [h.pending, h.loadReg_eq, h.loadValueReg_eq,
    show (0 : BitVec 32) = BitVec.ofNat 32 (0 : Fin 32) from rfl]
  simp only [hofNat]
  split_ifs with h₁ h₂ h₃
  · exact absurd (h₁.trans h₂.symm) hr
  · rw [← h₁, h.target_eq]
  · rw [← h₃]
    exact hzero
  · have hne : gpr rt ≠ gpr r := fun heq => h₁ (gpr_injective heq.symm)
    exact h.registers_eq hne (gpr_ne (by decide)) (gpr_ne (by decide))

theorem retire_eq (h : Interrupted r s t) (after : After) :
    Cpu.retire after s = Cpu.retire after t := by
  rw [Cpu.retire_eq, Cpu.retire_eq, h.delayedLoad_eq]

/-- A translation finds the same on both sides. -/
theorem translate (h : Interrupted r s t) (addr : BitVec 32) (size : Width) (writing : Bool) :
    (∃ which, s.translate addr size writing = .error which ∧
      t.translate addr size writing = .error which) ∨
    (∃ physicalAddress s' t', s.translate addr size writing = .ok (physicalAddress, s') ∧
      t.translate addr size writing = .ok (physicalAddress, t') ∧ Interrupted r s' t' ∧
      s'.registers = s.registers) := by
  rw [translate_congr h.pageTable h.pageTableSize]
  cases htranslate : s.translate addr size writing with
  | error which => exact .inl ⟨which, rfl, rfl⟩
  | ok result =>
      obtain ⟨physicalAddress, s'⟩ := result
      obtain ⟨-, rfl⟩ := translate_eq_ok htranslate
      refine .inr ⟨_, _, _, rfl, rfl, ⟨h.pending, h.registers, h.mainMemory, ?_, h.pageTableSize⟩, rfl⟩
      simp only [touch, h.pageTable]

theorem agree_readMem (h : Interrupted r s t) (hzero : s.registers (reg 0) = 0)
    (addr : BitVec 32) (size : Width) :
    Agree (fun a s b t => a = b ∧ Interrupted r s t ∧ s.registers (reg 0) = 0) Eq
      (Cpu.readMem addr size s) (Cpu.readMem addr size t) := by
  simp only [Cpu.readMem]
  obtain ⟨which, hs, ht⟩ | ⟨physicalAddress, s', t', hs, ht, h', hregs⟩ :=
    h.translate addr size false
  · rw [hs, ht]
    exact h.agree_raise _ which addr
  · rw [hs, ht]
    exact ⟨by rw [h'.mainMemory], h', by rw [hregs]; exact hzero⟩

end Interrupted

/-- An instruction that leaves the pending register alone is executed in step. Register `0`
counts only for an unaligned load into it, which looks at its old contents first. -/
theorem inStep_interrupted {r : Fin 32} {instr : Instruction} (hr : r ≠ 0)
    (hsource : gpr r ∉ instr.sources) (htarget : gpr r ∉ instr.targets) :
    InStep instr (fun s t => Interrupted r s t ∧ s.registers (reg 0) = 0) (Interrupted r) Eq where
  weaken _ _ h := h.1
  source s t h q hq := by
    have hlt := Instruction.lt_of_mem_sources hq
    refine h.registers_eq (fun heq => hsource (heq ▸ hq)) ?_ ?_
    · exact fun heq => absurd (heq ▸ hlt) (by decide)
    · exact fun heq => absurd (heq ▸ hlt) (by decide)
  merge := by
    rintro s t ⟨h, hzero⟩
    refine ⟨?_, h, hzero⟩
    exact h.mergeValue_eq hr hzero instr.rt
  target s t h q hq value := by
    have hlt := Instruction.lt_of_mem_targets hq
    refine h.writeRegister (fun heq => htarget (heq ▸ hq)) ?_ ?_ value
    · exact fun heq => absurd (heq ▸ hlt) (by decide)
    · exact fun heq => absurd (heq ▸ hlt) (by decide)
  read := by
    rintro addr size s t ⟨h, hzero⟩
    exact h.agree_readMem hzero addr size
  write := by
    rintro addr size value s t ⟨h, hzero⟩
    simp only [Cpu.writeMem]
    obtain ⟨which, hs, ht⟩ | ⟨physicalAddress, s', t', hs, ht, h', hregs⟩ :=
      h.translate addr size true
    · rw [hs, ht]
      exact h.agree_raise _ which addr
    · rw [hs, ht]
      exact ⟨h'.pending, h'.registers, by rw [h'.mainMemory], h'.pageTable, h'.pageTableSize⟩
  raise := by
    rintro which addr s t ⟨h, -⟩
    exact h.agree_raise _ which addr
  assertion := rfl
  divide := rfl

/-- What `DelayedLoad(0, 0)` makes of a machine with a pending load. -/
theorem delayedLoad_interrupted {m : Machine} {r : Fin 32} (hr : r ≠ 0)
    (hzero : m.registers (reg 0) = 0) (hpending : m.registers LoadReg = BitVec.ofNat 32 r) :
    m.delayedLoad 0 0 = .ok { m with registers := loadCompleted r m.registers } := by
  have hindex : (m.registers LoadReg).toNat = r := by
    have hlt := r.isLt
    rw [hpending, BitVec.toNat_ofNat, Nat.mod_eq_of_lt (by omega)]
  rw [delayedLoad_of_lt (by rw [hindex]; exact Nat.lt_trans r.isLt (by decide))]
  congr 2
  funext q
  have hq : (q : ℕ) = r ↔ q = gpr r := ⟨fun h => Fin.ext h, fun h => by rw [h]; rfl⟩
  have hne : gpr r ≠ reg 0 := fun h => hr (Fin.ext (show (r : ℕ) = 0 from congrArg Fin.val h))
  simp only [completed, loadCompleted, Function.update_apply, hindex, hq]
  by_cases h₀ : q = reg 0
  · rw [if_pos h₀, h₀, if_neg (by decide), if_neg (by decide), if_neg hne.symm, hzero]
  · rw [if_neg h₀]

/-- **Interrupts are invisible.** A load into `r` is pending and the next instruction neither
uses `r` as an operand nor stores a result into it. Whether the load is completed before the
instruction or by it makes no difference. -/
theorem interrupt_invisible (m : Machine) (r : Fin 32) (hr : r ≠ 0)
    (hzero : m.registers (reg 0) = 0) (hpending : m.registers LoadReg = BitVec.ofNat 32 r)
    (hinstr : ∀ raw m', Cpu.readMem (m.registers PCReg) .word m = .ok (raw, m') →
      gpr r ∉ (Instruction.decode raw).sources ∧ gpr r ∉ (Instruction.decode raw).targets) :
    (do Cpu.delayedLoad 0 0; Cpu.oneInstruction) m = Cpu.oneInstruction m := by
  let completed : Machine := { m with registers := loadCompleted r m.registers }
  have hstart : Interrupted r m completed := ⟨hpending, rfl, rfl, rfl, rfl⟩
  rw [Cpu.delayedLoad_bind (delayedLoad_interrupted hr hzero hpending)]
  have hpc : m.registers PCReg = completed.registers PCReg :=
    hstart.registers_eq (Interrupted.gpr_ne (by decide)).symm (by decide) (by decide)
  have hstep : Coupled (fun s t => s = m ∧ t = completed) Cpu.oneInstruction Cpu.oneInstruction
      (fun a s b t => a = b ∧ s = t) Eq := InStep.oneInstruction
    (C := fun raw => gpr r ∉ (Instruction.decode raw).sources ∧
      gpr r ∉ (Instruction.decode raw).targets)
    (fun s t h => by rw [h.1, h.2, hpc]) ?_ (fun s t h => ?_)
    (fun raw h => inStep_interrupted hr h.1 h.2) (fun after s t h => ?_)
  · exact (hstep m completed ⟨rfl, rfl⟩).eq.symm
  · rintro pc s t ⟨⟨rfl, ht⟩, rfl⟩
    rw [ht]
    have hread := hstart.agree_readMem hzero (s.registers PCReg) .word
    cases hfetch : Cpu.readMem (s.registers PCReg) .word s with
    | error trap =>
        obtain ⟨trap', htrap, heq⟩ := hread.of_error hfetch
        rw [htrap]
        exact heq
    | ok result =>
        obtain ⟨raw, s'⟩ := result
        obtain ⟨raw', t', hok, heq, hst⟩ := hread.of_ok hfetch
        rw [hok]
        exact ⟨heq, hinstr raw s' hfetch, hst⟩
  · exact h.1.registers_eq (Interrupted.gpr_ne (by decide)).symm (by decide) (by decide)
  · rw [h.retire_eq]
    cases Cpu.retire after t with
    | error trap => rfl
    | ok result => exact ⟨rfl, rfl⟩

/-- The instruction `lw r5, 0(r0)` while a load into register `5` is pending. -/
theorem interrupt_invisible_load :
    (onePage 0x8c050000).registers (reg 0) = 0 ∧
      (onePage 0x8c050000).registers LoadReg = BitVec.ofNat 32 (5 : Fin 32) ∧
      (do Cpu.delayedLoad 0 0; Cpu.oneInstruction) (onePage 0x8c050000) =
        Cpu.oneInstruction (onePage 0x8c050000) := by
  refine ⟨by decide, by decide, interrupt_invisible _ 5 (by decide) (by decide) (by decide) ?_⟩
  intro raw m' hread
  have hfetch : Cpu.readMem ((onePage 0x8c050000).registers PCReg) .word (onePage 0x8c050000) =
      .ok (0x8c050000, (onePage 0x8c050000).touch 0 false) := rfl
  rw [hfetch] at hread
  cases hread
  decide

end Machine

end Nachos
