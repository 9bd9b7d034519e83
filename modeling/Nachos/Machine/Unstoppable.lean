/-
# Instructions that stop the simulator

A user program chooses the instructions and, with them, the registers. Whatever it chooses, an
instruction should be carried out or raise an exception. There are two kinds of operands for
which it is neither: `LWL`, `LWR`, `SWL` and `SWR` assert that their address is aligned, where
the other loads and stores raise an address error, and `DIV` guards against a divisor of zero
but not against the quotient that does not fit. The weakest precondition of an instruction is
computed, so the condition is exact.
-/

import Nachos.Base.Weakest
import Nachos.Machine.Precise

namespace Nachos

open Base

/-- `MemorySize` of `machine.h`. -/
def MemorySize : ℕ := NumPhysPages * PageSize

namespace Machine

/-- `Machine::Translate` with the assertion at its end. -/
def assertedTranslate (m : Machine) (virtAddr : BitVec 32) (size : Width) (writing : Bool) :
    Except Fault (Except ExceptionType (ℕ × Machine)) :=
  match m.translate virtAddr size writing with
  | .error which => .ok (.error which)
  | .ok (physAddr, m) =>
      if physAddr + size.bytes ≤ MemorySize then .ok (.ok (physAddr, m))
      else .error .assertion

/-- The bytes of an aligned access lie in the frame of its page. -/
theorem assertedTranslate_eq (m : Machine) (virtAddr : BitVec 32) (size : Width)
    (writing : Bool) :
    m.assertedTranslate virtAddr size writing = .ok (m.translate virtAddr size writing) := by
  rw [assertedTranslate]
  cases h : m.translate virtAddr size writing with
  | error which => rfl
  | ok result =>
      obtain ⟨pa, m'⟩ := result
      obtain ⟨⟨halign, hmaps, rfl⟩, -⟩ := translate_eq_ok h
      have hframe := hmaps.inMemory
      refine if_pos ?_
      cases size <;>
        simp only [physAddr, MemorySize, NumPhysPages, PageSize, SectorSize, Width.bytes]
          at hframe halign ⊢ <;>
        omega

/-- The pending load is for a register of the register file. -/
def LoadsRegister (m : Machine) : Prop := (m.registers LoadReg).toNat < NumTotalRegs

instance (m : Machine) : Decidable m.LoadsRegister := inferInstanceAs (Decidable (_ < _))

end Machine

namespace Instruction

/-- The operands with which an instruction stops the simulator. -/
def Harmful (instr : Instruction) (registers : Registers) : Prop :=
  match instr.opCode with
  | .LWL | .LWR | .SWL | .SWR => (registers (gpr instr.rs) + instr.extra) &&& 3 ≠ 0
  | .DIV => registers (gpr instr.rs) = BitVec.intMin 32 ∧ registers (gpr instr.rt) = -1
  | _ => False

end Instruction

namespace Trap

/-- The kernel is entered. -/
def IsException : Trap → Prop
  | .exception _ _ => True
  | .fault _ | .divide => False

end Trap

namespace Machine

@[simp]
theorem loadsRegister_writeRegister {m : Machine} {r : Fin NumTotalRegs} (value : BitVec 32)
    (h : (r : ℕ) < 37) : (m.writeRegister r value).LoadsRegister ↔ m.LoadsRegister := by
  have hne : LoadReg ≠ r := fun heq => absurd h (by rw [← heq]; decide)
  rw [LoadsRegister, registers_writeRegister_of_ne m value hne, LoadsRegister]

theorem LoadsRegister.congr {m m' : Machine} (h : m'.registers = m.registers) :
    m'.LoadsRegister ↔ m.LoadsRegister := by
  rw [LoadsRegister, h, LoadsRegister]

/-- The store of a pending load that is for no register leaves the register file. -/
theorem delayedLoad_of_not {m : Machine} (h : ¬ m.LoadsRegister) (nextReg nextValue : BitVec 32) :
    m.delayedLoad nextReg nextValue = .error .bounds :=
  dif_neg h

end Machine

@[simp]
theorem hiReg_lt : (HiReg : ℕ) < 37 := by decide

@[simp]
theorem loReg_lt : (LoReg : ℕ) < 37 := by decide

@[simp]
theorem r31_lt : (R31 : ℕ) < 37 := by decide

@[simp]
theorem gpr_lt (r : Fin 32) : (gpr r : ℕ) < 37 := Nat.lt_trans r.isLt (by decide)

namespace Cpu

variable {α : Type} {m : Machine} {Q : α → Machine → Prop}

/-- From `m`, `x` ends with a load that can be completed, or raises an exception. -/
abbrev Ends (x : Cpu α) (m : Machine) : Prop :=
  wp Trap.IsException x (fun _ m => m.LoadsRegister) m

@[simp]
theorem wp_getReg {E : Trap → Prop} (r : Fin NumTotalRegs) (Q : BitVec 32 → Machine → Prop) :
    wp E (getReg r) Q m ↔ Q (m.registers r) m :=
  Iff.rfl

@[simp]
theorem wp_setReg {E : Trap → Prop} (r : Fin NumTotalRegs) (value : BitVec 32)
    (Q : Unit → Machine → Prop) : wp E (setReg r value) Q m ↔ Q () (m.writeRegister r value) :=
  Iff.rfl

@[simp]
theorem wp_check (condition : Prop) [Decidable condition] (Q : Unit → Machine → Prop) :
    wp Trap.IsException (check condition) Q m ↔ condition ∧ Q () m := by
  by_cases h : condition
  · rw [wp_of_ok (show check condition m = .ok ((), m) from if_pos h)]
    exact (and_iff_right h).symm
  · rw [wp_of_error (show check condition m = .error (.fault .assertion) from if_neg h)]
    exact ⟨False.elim, fun hand => h hand.1⟩

@[simp]
theorem wp_raise (which : ExceptionType) (badVAddr : BitVec 32) :
    wp Trap.IsException (raise which badVAddr) Q m ↔ m.LoadsRegister := by
  by_cases h : m.LoadsRegister
  · rw [wp_of_error (raise_of_lt h which badVAddr)]
    exact iff_of_true trivial h
  · have hfault : (raise which badVAddr : Cpu α) m = .error (.fault .bounds) := by
      have hload : ¬ (m.writeRegister BadVAddrReg badVAddr).LoadsRegister := by
        rw [Machine.LoadsRegister, Machine.registers_writeRegister_of_ne m badVAddr (by decide)]
        exact h
      rw [raise, Machine.delayedLoad_of_not hload]
    rw [wp_of_error hfault]
    exact iff_of_false id h

/-- A read raises an exception or changes no register. -/
theorem wp_readMem {Q : BitVec 32 → Machine → Prop} (addr : BitVec 32) (size : Width)
    (hQ : ∀ value s, s.registers = m.registers → (Q value s ↔ m.LoadsRegister)) :
    wp Trap.IsException (readMem addr size) Q m ↔ m.LoadsRegister := by
  cases h : m.translate addr size false with
  | error which =>
      have hraise : readMem addr size m = raise which addr m := by rw [readMem, h]
      rw [wp_congr hraise, wp_raise]
  | ok result =>
      obtain ⟨physicalAddress, s⟩ := result
      obtain ⟨-, rfl⟩ := Machine.translate_eq_ok h
      have hread : readMem addr size m = .ok (Machine.load m.mainMemory physicalAddress size,
          m.touch (addr.toNat / PageSize) false) := by rw [readMem, h]; rfl
      rw [wp_of_ok hread]
      exact hQ _ _ rfl

/-- A write raises an exception or changes no register. -/
theorem wp_writeMem {Q : Unit → Machine → Prop} (addr : BitVec 32) (size : Width)
    (value : BitVec 32) (hQ : ∀ s, s.registers = m.registers → (Q () s ↔ m.LoadsRegister)) :
    wp Trap.IsException (writeMem addr size value) Q m ↔ m.LoadsRegister := by
  cases h : m.translate addr size true with
  | error which =>
      have hraise : writeMem addr size value m = raise which addr m := by rw [writeMem, h]
      rw [wp_congr hraise, wp_raise]
  | ok result =>
      obtain ⟨physicalAddress, s⟩ := result
      obtain ⟨-, rfl⟩ := Machine.translate_eq_ok h
      have hwrite : writeMem addr size value m = .ok ((),
          { m.touch (addr.toNat / PageSize) true with
            mainMemory := Machine.store m.mainMemory physicalAddress value size }) := by
        rw [writeMem, h]
        rfl
      rw [wp_of_ok hwrite]
      exact hQ _ rfl

/-- The end of an instruction completes the pending load. -/
theorem wp_retire (after : After) :
    wp Trap.IsException (retire after) (fun _ _ => True) m ↔ m.LoadsRegister := by
  by_cases h : m.LoadsRegister
  · rw [wp, retire_eq, Machine.delayedLoad_of_lt h]
    exact iff_of_true trivial h
  · rw [wp, retire_eq, Machine.delayedLoad_of_not h]
    exact iff_of_false id h

end Cpu

namespace Instruction

open Cpu

variable {m : Machine} (instr : Instruction) (pcAfter : BitVec 32)

@[simp]
theorem ends_goOn : Ends (goOn pcAfter) m ↔ m.LoadsRegister :=
  Iff.rfl

@[simp]
theorem ends_loaded (value : BitVec 32) : Ends (instr.loaded pcAfter value) m ↔ m.LoadsRegister :=
  Iff.rfl

@[simp]
theorem wp_address {E : Trap → Prop} (Q : BitVec 32 → Machine → Prop) :
    wp E instr.address Q m ↔ Q (m.registers (gpr instr.rs) + instr.extra) m :=
  Iff.rfl

@[simp]
theorem ends_loadFrom (tmp : BitVec 32) (size : Width) (extend : BitVec 32 → BitVec 32) :
    Ends (instr.loadFrom pcAfter tmp size extend) m ↔ m.LoadsRegister := by
  rw [loadFrom, Ends, wp_bind]
  exact wp_readMem tmp size fun value s h => Machine.LoadsRegister.congr h

@[simp]
theorem ends_storeReg (size : Width) :
    Ends (instr.storeReg pcAfter size) m ↔ m.LoadsRegister := by
  simp only [storeReg, Ends, wp_bind, wp_address, wp_getReg]
  exact wp_writeMem _ size _ fun s h => Machine.LoadsRegister.congr h

@[simp]
theorem ends_loadMerge (merge : BitVec 32 → BitVec 32 → BitVec 32 → BitVec 32) :
    Ends (instr.loadMerge pcAfter merge) m ↔
      (m.registers (gpr instr.rs) + instr.extra) &&& 3 = 0 ∧ m.LoadsRegister := by
  simp only [loadMerge, Ends, wp_bind, wp_address, wp_check]
  refine and_congr_right fun _ => wp_readMem _ .word fun value s h => ?_
  exact Machine.LoadsRegister.congr h

@[simp]
theorem ends_storeMerge (merge : BitVec 32 → BitVec 32 → BitVec 32 → BitVec 32) :
    Ends (instr.storeMerge pcAfter merge) m ↔
      (m.registers (gpr instr.rs) + instr.extra) &&& 3 = 0 ∧ m.LoadsRegister := by
  simp only [storeMerge, Ends, wp_bind, wp_address, wp_check]
  refine and_congr_right fun _ => wp_readMem _ .word fun value s h => ?_
  simp only [wp_bind, wp_getReg]
  rw [wp_writeMem _ .word _ fun s' h' => Machine.LoadsRegister.congr h']
  exact Machine.LoadsRegister.congr h

@[simp]
theorem ends_threeReg (f : BitVec 32 → BitVec 32 → BitVec 32) :
    Ends (instr.threeReg pcAfter f) m ↔ m.LoadsRegister := by
  simp [threeReg, Ends]

@[simp]
theorem ends_threeRegTrap (f : BitVec 32 → BitVec 32 → BitVec 32)
    (overflow : BitVec 32 → BitVec 32 → BitVec 32 → Bool) :
    Ends (instr.threeRegTrap pcAfter f overflow) m ↔ m.LoadsRegister := by
  simp [threeRegTrap, Ends]

@[simp]
theorem ends_immediate (f : BitVec 32 → BitVec 32 → BitVec 32) :
    Ends (instr.immediate pcAfter f) m ↔ m.LoadsRegister := by
  simp [immediate, Ends]

@[simp]
theorem ends_shift (f : BitVec 32 → ℕ → BitVec 32) :
    Ends (instr.shift pcAfter f) m ↔ m.LoadsRegister := by
  simp [shift, Ends]

@[simp]
theorem ends_branchTwo (c : BitVec 32 → BitVec 32 → Bool) :
    Ends (instr.branchTwo pcAfter c) m ↔ m.LoadsRegister := by
  simp [branchTwo, Ends]

@[simp]
theorem ends_branch (c : BitVec 32 → Bool) :
    Ends (instr.branch pcAfter c) m ↔ m.LoadsRegister := by
  simp [branch, Ends]

@[simp]
theorem wp_link {E : Trap → Prop} (r : Fin NumTotalRegs) (Q : Unit → Machine → Prop) :
    wp E (link r) Q m ↔ Q () (m.writeRegister r (m.registers NextPCReg + 4)) :=
  Iff.rfl

@[simp]
theorem ends_move {dst : Fin NumTotalRegs} (src : Fin NumTotalRegs) (h : (dst : ℕ) < 37) :
    Ends (move pcAfter dst src) m ↔ m.LoadsRegister := by
  simp [move, Ends, h]

@[simp]
theorem ends_hiLo (f : BitVec 32 → BitVec 32 → BitVec 32 × BitVec 32) :
    Ends (instr.hiLo pcAfter f) m ↔ m.LoadsRegister := by
  simp [hiLo, Ends]


/-- The host divides unless the quotient does not fit. -/
theorem ends_div (h : instr.opCode = .DIV) :
    Ends (instr.execute pcAfter) m ↔ ¬ (m.registers (gpr instr.rs) = BitVec.intMin 32 ∧
      m.registers (gpr instr.rt) = -1) ∧ m.LoadsRegister := by
  rw [execute, h]
  simp only [Ends, wp_bind, wp_getReg, wp_ite]
  by_cases hzero : m.registers (gpr instr.rt) = 0
  · rw [if_pos hzero, hzero]
    simp
  · rw [if_neg hzero]
    by_cases hfit : m.registers (gpr instr.rs) = BitVec.intMin 32 ∧ m.registers (gpr instr.rt) = -1
    · rw [if_pos hfit]
      exact iff_of_false id fun hand => hand.1 hfit
    · rw [if_neg hfit, and_iff_right hfit]
      simp

/-- **The weakest precondition of an instruction.** -/
theorem ends_execute :
    Ends (instr.execute pcAfter) m ↔ ¬ instr.Harmful m.registers ∧ m.LoadsRegister := by
  cases h : instr.opCode with
  | DIV => rw [ends_div instr pcAfter h, Harmful, h]
  | LWL | LWR | SWL | SWR => simp [execute, Harmful, h]
  | ADDI | LH | LHU | LW => simp [execute, Harmful, h, Ends]
  | _ => simp [execute, Harmful, h]

end Instruction

namespace Machine

/-- The instruction word at the program counter, if it can be fetched. -/
def fetched (m : Machine) : Option (BitVec 32) :=
  match m.translate (m.registers PCReg) .word false with
  | .error _ => none
  | .ok (physicalAddress, _) => some (load m.mainMemory physicalAddress .word)

/-- `OneInstruction` completes the instruction or raises an exception. -/
def Completes (m : Machine) : Prop := wp Trap.IsException Cpu.oneInstruction (fun _ _ => True) m

/-- The pending load is for a register, and the instruction has operands it can work with. -/
def Harmless (m : Machine) : Prop :=
  m.LoadsRegister ∧ ∀ raw, m.fetched = some raw → ¬ (Instruction.decode raw).Harmful m.registers

/-- What is left of an instruction after the fetch. -/
theorem wp_decoded (raw pcAfter : BitVec 32) (m : Machine) :
    wp Trap.IsException ((Instruction.decode raw).execute pcAfter >>= Cpu.retire)
      (fun _ _ => True) m ↔ ¬ (Instruction.decode raw).Harmful m.registers ∧ m.LoadsRegister := by
  have hretire : (fun after => wp Trap.IsException (Cpu.retire after) fun _ _ => True) =
      fun _ s => s.LoadsRegister := by
    funext after s
    exact propext (Cpu.wp_retire after)
  rw [wp_bind, hretire]
  exact Instruction.ends_execute _ pcAfter

/-- **A user program cannot take the machine down**, unless it merges a word at an unaligned
address or divides the least integer by `-1`. No assertion of `Translate` can fail. -/
theorem completes_iff (m : Machine) :
    (∀ (virtAddr : BitVec 32) (size : Width) (writing : Bool),
      m.assertedTranslate virtAddr size writing = .ok (m.translate virtAddr size writing)) ∧
    (m.Completes ↔ m.Harmless) := by
  refine ⟨m.assertedTranslate_eq, ?_⟩
  rw [Completes, Harmless, Cpu.oneInstruction, wp_bind, Cpu.wp_getReg, wp_bind]
  cases h : m.translate (m.registers PCReg) .word false with
  | error which =>
      have hraise : Cpu.readMem (m.registers PCReg) .word m =
          Cpu.raise which (m.registers PCReg) m := by rw [Cpu.readMem, h]
      have hnone : m.fetched = none := by rw [fetched, h]
      rw [wp_congr hraise, Cpu.wp_raise, hnone, and_iff_left (by simp)]
  | ok result =>
      obtain ⟨physicalAddress, s⟩ := result
      obtain ⟨-, rfl⟩ := translate_eq_ok h
      have hread : Cpu.readMem (m.registers PCReg) .word m =
          .ok (load m.mainMemory physicalAddress .word,
            m.touch ((m.registers PCReg).toNat / PageSize) false) := by rw [Cpu.readMem, h]; rfl
      have hsome : m.fetched = some (load m.mainMemory physicalAddress .word) := by
        rw [fetched, h]
      rw [wp_of_ok hread, wp_bind, Cpu.wp_getReg, wp_decoded, hsome, and_comm]
      refine and_congr (LoadsRegister.congr rfl) ⟨fun hsafe raw hraw => ?_, fun hsafe => ?_⟩
      · cases hraw
        exact hsafe
      · exact hsafe _ rfl

/-- The machine of `onePage` with the operands of `div r1, r2` in its registers. -/
def dividing : Machine :=
  { onePage 0x0022001a with
    registers := fun r => if r = reg 1 then BitVec.intMin 32 else if r = reg 2 then -1 else 0 }

/-- A program divides the least integer by `-1`, and another one loads with `lwl r5, 1(r0)`. -/
theorem not_completes :
    (∀ vpn < dividing.pageTableSize, dividing.pageFrame vpn < NumPhysPages) ∧
      Cpu.oneInstruction dividing = .error .divide ∧ ¬ dividing.Completes ∧
      Cpu.oneInstruction (onePage 0x88050001) = .error (.fault .assertion) ∧
      ¬ (onePage 0x88050001).Completes := by
  have hdivide : Cpu.oneInstruction dividing = .error .divide := rfl
  have hmerge : Cpu.oneInstruction (onePage 0x88050001) = .error (.fault .assertion) := rfl
  refine ⟨fun vpn hvpn => ?_, hdivide, ?_, hmerge, ?_⟩
  · obtain rfl : vpn = 0 := Nat.lt_one_iff.mp hvpn
    decide
  · rw [Completes, wp_of_error hdivide]
    exact id
  · rw [Completes, wp_of_error hmerge]
    exact id

end Machine

end Nachos
