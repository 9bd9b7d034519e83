/-
# The machine that runs user programs

`machine/machine.{h,cc}` and `machine/translate.{h,cc}`, with `DelayedLoad` of
`machine/mipssim.cc` and `UpdatePC` of `userprog/exception.cc`. There is no TLB, and while a
user program runs a page table is installed: it is indexed by the virtual page number.

The host is little-endian and its `char` is signed. An exception other than a system call
only moves the program counter on, so a failed access inside a system call returns to the
kernel code that made it.
-/

import Mathlib.Logic.Function.Basic
import Nachos.Machine.Disk

namespace Nachos

open Base

/-- The page size equals the sector size. -/
def PageSize : ℕ := SectorSize

/-- Number of frames of physical memory. -/
def NumPhysPages : ℕ := 256

/-- `class TranslationEntry`. -/
structure TranslationEntry where
  virtualPage : ℕ
  physicalPage : ℤ
  valid : Bool
  readOnly : Bool
  use : Bool
  dirty : Bool
  deriving DecidableEq, Repr

/-- `NumTotalRegs` of `machine.h`. -/
def NumTotalRegs : ℕ := 40

/-- The registers of the machine. -/
abbrev Registers := Fin NumTotalRegs → BitVec 32

/-- The register with the given number. -/
def reg (n : ℕ) : Fin NumTotalRegs := ⟨n % NumTotalRegs, Nat.mod_lt n (by decide)⟩

/-- Current program counter. -/
def PCReg : Fin NumTotalRegs := reg 34

/-- Next program counter (for branch delay). -/
def NextPCReg : Fin NumTotalRegs := reg 35

/-- Previous program counter (for debugging). -/
def PrevPCReg : Fin NumTotalRegs := reg 36

/-- The register target of a delayed load. -/
def LoadReg : Fin NumTotalRegs := reg 37

/-- The value to be loaded by a delayed load. -/
def LoadValueReg : Fin NumTotalRegs := reg 38

/-- The failing virtual address on an exception. -/
def BadVAddrReg : Fin NumTotalRegs := reg 39

/-- `enum ExceptionType`; `NoException` is a result that is not an error. -/
inductive ExceptionType
  | syscallException
  | pageFaultException
  | readOnlyException
  | busErrorException
  | addressErrorException
  | overflowException
  | illegalInstrException
  deriving DecidableEq, Repr

/-- The sizes of memory accesses. -/
inductive Width
  | byte
  | half
  | word
  deriving DecidableEq, Repr

/-- Number of bytes of an access. -/
def Width.bytes : Width → ℕ
  | .byte => 1
  | .half => 2
  | .word => 4

/-- `class Machine`: what the simulation of user programs works on. -/
structure Machine where
  registers : Registers
  mainMemory : Mem
  pageTable : ℕ → TranslationEntry
  pageTableSize : ℕ

namespace Machine

/-- `Machine::ReadRegister`. -/
def readRegister (m : Machine) (num : Fin NumTotalRegs) : BitVec 32 := m.registers num

/-- `Machine::WriteRegister`. -/
def writeRegister (m : Machine) (num : Fin NumTotalRegs) (value : BitVec 32) : Machine :=
  { m with registers := Function.update m.registers num value }

@[simp]
theorem registers_writeRegister_self (m : Machine) (num : Fin NumTotalRegs) (value : BitVec 32) :
    (m.writeRegister num value).registers num = value := Function.update_self ..

theorem registers_writeRegister_of_ne (m : Machine) {num num' : Fin NumTotalRegs}
    (value : BitVec 32) (h : num' ≠ num) :
    (m.writeRegister num value).registers num' = m.registers num' := Function.update_of_ne h ..

/-- `UpdatePC`. -/
def updatePC (m : Machine) : Machine :=
  let pc := m.readRegister PCReg
  let m := m.writeRegister PrevPCReg pc
  let pc := m.readRegister NextPCReg
  let m := m.writeRegister PCReg pc
  m.writeRegister NextPCReg (pc + 4)

/-- `Machine::DelayedLoad`. The register to be loaded is an index into the registers. -/
def delayedLoad (m : Machine) (nextReg nextValue : BitVec 32) : Except Fault Machine :=
  if h : (m.registers LoadReg).toNat < NumTotalRegs then
    let m := m.writeRegister ⟨(m.registers LoadReg).toNat, h⟩ (m.registers LoadValueReg)
    .ok (((m.writeRegister LoadReg nextReg).writeRegister LoadValueReg nextValue).writeRegister
      (reg 0) 0)
  else .error .bounds

/-- `Machine::RaiseException` for an exception other than a system call. -/
def raiseException (m : Machine) (badVAddr : BitVec 32) : Except Fault Machine := do
  let m ← (m.writeRegister BadVAddrReg badVAddr).delayedLoad 0 0
  return m.updatePC

/-- The use and dirty bits of an entry are set. -/
def touch (m : Machine) (vpn : ℕ) (writing : Bool) : Machine :=
  { m with
    pageTable := Function.update m.pageTable vpn
      { m.pageTable vpn with use := true, dirty := (m.pageTable vpn).dirty || writing } }

/-- `pageFrame`: the frame of a page, as an `unsigned int`. -/
def pageFrame (m : Machine) (vpn : ℕ) : ℕ := ((m.pageTable vpn).physicalPage % 2 ^ 32).toNat

/-- The physical address of a byte of a page that is mapped. -/
def physAddr (m : Machine) (virtAddr : BitVec 32) : ℕ :=
  m.pageFrame (virtAddr.toNat / PageSize) * PageSize + virtAddr.toNat % PageSize

/-- `Machine::Translate`. -/
def translate (m : Machine) (virtAddr : BitVec 32) (size : Width) (writing : Bool) :
    Except ExceptionType (ℕ × Machine) :=
  let vpn := virtAddr.toNat / PageSize
  if virtAddr.toNat % size.bytes ≠ 0 then .error .addressErrorException
  else if vpn ≥ m.pageTableSize then .error .addressErrorException
  else if !(m.pageTable vpn).valid then .error .pageFaultException
  else if (m.pageTable vpn).readOnly && writing then .error .readOnlyException
  else if m.pageFrame vpn ≥ NumPhysPages then .error .busErrorException
  else .ok (m.physAddr virtAddr, m.touch vpn writing)

/-- Only the page table counts for a translation. -/
theorem translate_congr {m m' : Machine} (htable : m'.pageTable = m.pageTable)
    (hsize : m'.pageTableSize = m.pageTableSize) (virtAddr : BitVec 32) (size : Width)
    (writing : Bool) :
    m'.translate virtAddr size writing = (m.translate virtAddr size writing).map fun result =>
      (result.1, m'.touch (virtAddr.toNat / PageSize) writing) := by
  have hframe (vpn : ℕ) : m'.pageFrame vpn = m.pageFrame vpn := by
    rw [pageFrame, pageFrame, htable]
  have hphys : m'.physAddr virtAddr = m.physAddr virtAddr := by rw [physAddr, physAddr, hframe]
  simp only [translate, hphys, hframe, htable, hsize]
  split_ifs <;> rfl

/-- The value at a physical address: a byte is sign-extended, a half word is not. -/
def load (mainMemory : Mem) (physicalAddress : ℕ) : Width → BitVec 32
  | .byte => (mainMemory physicalAddress).toBitVec.signExtend 32
  | .half => BitVec.ofNat 32
      ((mainMemory physicalAddress).toNat + 256 * (mainMemory (physicalAddress + 1)).toNat)
  | .word => mainMemory.word physicalAddress

/-- The low bytes of a value stored at a physical address. -/
def store (mainMemory : Mem) (physicalAddress : ℕ) (value : BitVec 32) : Width → Mem
  | .byte => mainMemory.setByte physicalAddress (UInt8.ofNat value.toNat)
  | .half => (mainMemory.setByte physicalAddress (UInt8.ofNat value.toNat)).setByte
      (physicalAddress + 1) (UInt8.ofNat (value.toNat / 256))
  | .word => mainMemory.setWord physicalAddress value

/-- `Machine::ReadMem`; `none` is the result `FALSE`. -/
def readMem (m : Machine) (addr : BitVec 32) (size : Width) :
    Except Fault (Option (BitVec 32) × Machine) :=
  match m.translate addr size false with
  | .error _ => do
      let m ← m.raiseException addr
      return (none, m)
  | .ok (physicalAddress, m) => .ok (some (load m.mainMemory physicalAddress size), m)

/-- `Machine::WriteMem`. -/
def writeMem (m : Machine) (addr : BitVec 32) (size : Width) (value : BitVec 32) :
    Except Fault (Bool × Machine) :=
  match m.translate addr size true with
  | .error _ => do
      let m ← m.raiseException addr
      return (false, m)
  | .ok (physicalAddress, m) =>
      .ok (true, { m with mainMemory := store m.mainMemory physicalAddress value size })

end Machine

end Nachos
